import ScoreText.Proofs.Notation.Announced
import ScoreText.Proofs.Notation.Kinds

/-!
Ties are written as dashes: what a parser announces of an expanded text without a dash is tied to
nothing.
-/

set_option autoImplicit false

namespace ScoreText

variable {R : Type}

/-- A note that is tied to no other. -/
def Note.Untied (n : Note R) : Prop := n.startsTie = false ∧ n.endsTie = false

/-- A note or a chord that is tied to no other; any event that is neither. -/
def Event.Untied : Event R → Prop
  | .note n => n.Untied
  | .chord c => c.root.Untied
  | _ => True

instance (n : Note R) : Decidable n.Untied :=
  inferInstanceAs (Decidable (n.startsTie = false ∧ n.endsTie = false))

instance : DecidablePred (Event.Untied (R := R))
  | .note n => inferInstanceAs (Decidable n.Untied)
  | .chord c => inferInstanceAs (Decidable c.root.Untied)
  | .parsingStarts | .parsingEnds | .barLine _ | .bookmark _ | .bookmarkRequest _ | .lyric _
  | .marker _ | .systemExclusive _ | .call _ _ | .track _ | .layer _ | .instrument _ | .tempo _
  | .keySignature _ _ | .timeSignature _ _ | .timeRequest _ | .pitchWheel _ _ | .channelPressure _
  | .polyPressure _ _ | .controller _ _ | .notePressed _ | .noteReleased _ =>
    inferInstanceAs (Decidable True)

section Reading

open NoteContext

variable [Scalar R] {ctx : NoteContext R} {text s rest : Text} {m n : Note R}

theorem readTie_of_not_mem {isRest : Bool} (h : '-' ∉ s) : (readTie isRest s).1 = false := by
  unfold readTie
  split
  · exact absurd List.mem_cons_self h
  · rfl

theorem untied_readTiesAndLength (hs : '-' ∉ s) (hm : m.startsTie = false)
    (h : readTiesAndLength text m s = .ok (n, rest)) : n.Untied := by
  have hends : (readTie m.isRest s).1 = false := readTie_of_not_mem hs
  obtain ⟨⟨length?, afterLength⟩, hlength, h⟩ := ok_of_bind h
  have hafter : afterLength <:+ s :=
    ((keeps_readLength? text _).suffix _ _ hlength).trans (suffix_readTie _ _)
  cases length? with
  | none =>
    cases h
    exact ⟨hm, hends⟩
  | some length =>
    dsimp only at h
    split at h
    · rename_i r
      obtain ⟨⟨ratio, left⟩, hratio, h⟩ := ok_of_bind h
      have hleft : left <:+ s := ((keeps_readTuplet text r).suffix _ _ hratio).trans
        ((List.suffix_cons _ r).trans hafter)
      cases h
      exact ⟨readTie_of_not_mem fun hc => hs (hleft.subset hc), hends⟩
    · cases h
      exact ⟨readTie_of_not_mem fun hc => hs (hafter.subset hc), hends⟩

theorem untied_readSuffix (hs : '-' ∉ s) (hm : m.startsTie = false)
    (h : readSuffix text m s = .ok (n, rest)) : n.Untied := by
  obtain ⟨⟨note, left⟩, hnote, h⟩ := ok_of_bind h
  exact readVelocities_eq_ok (P := Note.Untied) (fun _ _ _ h => h) (fun _ _ _ h => h)
    (untied_readTiesAndLength hs hm hnote) h

theorem untied_readElement (hs : '-' ∉ s) {e : Element R}
    (h : ctx.readElement text s = .ok (e, rest)) : e.lead.Untied := by
  obtain ⟨⟨tone, afterTone⟩, htone, h⟩ := ok_of_bind h
  have hafter : afterTone <:+ s :=
    ((ctx.keeps_readTone text s).suffix _ _ htone).trans (List.tail_suffix s)
  have hstarts : tone.startsTie = false := (readTone_eq_ok htone).bare.startsTie
  dsimp only at h
  split at h
  · obtain ⟨⟨n, left⟩, hn, h⟩ := ok_of_bind h
    cases h
    refine untied_readSuffix (fun hc => hs (hafter.subset hc)) ?_ hn
    exact hstarts
  · rename_i name shape _
    obtain ⟨root, hroot, h⟩ := ok_of_bind h
    obtain ⟨⟨inversion, afterInversion⟩, hinversion, h⟩ := ok_of_bind h
    obtain ⟨⟨n, left⟩, hn, h⟩ := ok_of_bind h
    have hleft : afterInversion <:+ s := ((ctx.keeps_readInversion text 0 _).suffix _ _ hinversion).trans
      ((List.drop_suffix _ _).trans hafter)
    have hlead := untied_readSuffix (fun hc => hs (hleft.subset hc))
      ((startsTie_chordRoot hroot).trans hstarts) hn
    cases h
    cases inversion <;> exact hlead

theorem untied_readNotes (hs : '-' ∉ s) {es : List (Event R)}
    (h : Fragment.readNotes ctx s = .ok (es, rest)) : ∀ e ∈ es, e.Untied := by
  obtain ⟨⟨elements, left⟩, hread, h⟩ := ok_of_bind h
  cases h
  have huntied := ctx.forall_readJoined s (P := fun e => e.lead.Untied)
    (fun t joint e left ht he => by
      have := untied_readElement (fun hc => hs (ht.subset hc)) he
      cases e <;> cases joint <;> exact this) hread
  refine List.forall_mem_map.mpr fun e he => ?_
  have := huntied e he
  cases e <;> exact this

end Reading

namespace Event

theorem Among.untied {kinds : List EventKind} {e : Event R} (h : e.Among kinds) : e.Untied := by
  obtain ⟨⟨still, -, -⟩, -⟩ := h
  cases e with
  | note n => cases still
  | chord c => cases still
  | _ => trivial

theorem untied_read [Scalar R] (ctx : Context R) {s : Text} (hs : '-' ∉ s) (family : Family) :
    ∀ e ∈ (family.read ctx s).events, e.Untied := by
  cases family with
  | atom =>
    refine Fragment.forall_atom (fun parts e he => (among_parts _ _ _ e he).untied) ?_
    exact fun last es rest hlast hread => untied_readNotes (fun hc => hs (hlast.subset hc)) hread
  | note => exact Family.forall_settled fun _ _ h => untied_readNotes hs h
  | barLine | selection | tempo | beatTime | caption | call =>
    exact fun e he => (Family.among_read ctx s (by decide) e he).untied
  | signature =>
    intro e he
    have hkind := Family.kind_read ctx s .signature e he
    cases e with
    | note n => exact absurd hkind (by simp [kind, Family.kinds])
    | chord c => exact absurd hkind (by simp [kind, Family.kinds])
    | _ => trivial

/-- Nothing is tied to anything in a text that comes to one without a dash. -/
theorem untied_parse [Scalar R] (p : Parser R) {text : Text}
    (h : ∀ expanded, p.expand text = .ok expanded → '-' ∉ expanded) :
    ∀ e ∈ (p.parse text).events, e.Untied := by
  have hread : ∀ e ∈ (p.readText text).events, e.Untied :=
    Parser.forall_readText fun expanded hexpanded memory t family ht =>
      untied_read _ (fun hc => h expanded hexpanded (ht.subset hc)) family
  refine List.forall_mem_append.mpr ⟨List.forall_mem_cons.mpr ⟨trivial, hread⟩, ?_⟩
  exact List.forall_mem_singleton.mpr trivial

end Event

end ScoreText

import ScoreText.Proofs.Notation.Claiming
import ScoreText.Proofs.Notation.Ranges
import ScoreText.Proofs.Text.Cutting

/-!
The kinds of events that each family of fragments announces. What holds of all that the families
announce holds of all that reading a text does.
-/

set_option autoImplicit false

namespace ScoreText

variable {R : Type}

namespace Fragment

theorem kind_notes [Scalar R] {ctx : NoteContext R} {fragment rest : Text} {es : List (Event R)}
    (h : readNotes ctx fragment = .ok (es, rest)) : ∀ e ∈ es, e.kind ∈ Family.kinds .note := by
  obtain ⟨⟨elements, left⟩, -, h⟩ := ok_of_bind h
  cases h
  refine List.forall_mem_map.mpr fun element _ => ?_
  cases element <;> simp [elementEvent, Event.kind, Family.kinds]

/-- What holds of the changes in an atom and of its notes holds of all that it announces. -/
theorem forall_atom [Scalar R] {P : Event R → Prop} {ctx : Context R} {fragment : Text}
    (hchanges : ∀ parts, ∀ e ∈ (readAtomParts ctx.memory.symbols fragment parts).1, P e)
    (hnotes : ∀ last es rest, last <:+: fragment → readNotes ctx.noteContext last = .ok (es, rest) →
      ∀ e ∈ es, P e) :
    ∀ e ∈ (readAtom ctx fragment).1, P e := by
  unfold readAtom
  dsimp only
  split
  · exact hchanges _
  · split
    · exact hchanges _
    · exact hchanges _
    · rename_i events hread
      refine List.forall_mem_append.mpr ⟨hchanges _, hnotes _ _ _ ?_ hread⟩
      cases hlast : (Text.fields ',' (fragment.drop 1)).getLast? with
      | none => exact List.nil_infix
      | some last =>
        exact (Text.infix_of_mem_fields (List.mem_of_getLast? hlast)).trans
          (List.drop_suffix 1 fragment).isInfix

theorem kind_atom [Scalar R] (ctx : Context R) (fragment : Text) :
    ∀ e ∈ (readAtom ctx fragment).1, e.kind ∈ Family.kinds .atom := by
  have hwide : ∀ family, family = .selection ∨ family = .note →
      ∀ kind ∈ Family.kinds family, kind ∈ Family.kinds .atom := by
    rintro family (rfl | rfl) <;> decide
  refine forall_atom (fun parts e he => ?_) (fun _ _ _ _ hread e he => ?_)
  · exact hwide _ (.inl rfl) _ (Event.among_parts _ _ _ e he).kind
  · exact hwide _ (.inr rfl) _ (kind_notes hread e he)

theorem kind_signature {memory memory' : Memory} {fragment rest : Text} {es : List (Event R)}
    (h : readSignature memory fragment = .ok (es, memory', rest)) :
    ∀ e ∈ es, e.kind ∈ Family.kinds .signature := by
  rcases Event.signature_cases h with ⟨hamong, -⟩ | ⟨key, rfl, -⟩
  · exact fun e he => (hamong e he).kind
  · exact List.forall_mem_singleton.mpr List.mem_cons_self

end Fragment

namespace Family

/-- A family announces events of its kinds and no others. -/
theorem kind_read [Scalar R] (ctx : Context R) (fragment : Text) (family : Family) :
    ∀ e ∈ (family.read ctx fragment).events, e.kind ∈ family.kinds := by
  cases family with
  | atom => exact Fragment.kind_atom ctx fragment
  | note => exact forall_settled fun _ _ h => Fragment.kind_notes h
  | signature =>
    rw [read]
    cases hr : (Fragment.readSignature ctx.memory fragment :
        Except Error (List (Event R) × Memory × Text)) with
    | error _ => simp
    | ok reading => exact Fragment.kind_signature hr
  | barLine | selection | tempo | beatTime | caption | call =>
    exact fun e he => (among_read ctx fragment (by decide) e he).kind

/-- A voice that is announced is one of those that there are. -/
theorem track_read [Scalar R] {ctx : Context R} {fragment : Text} {family : Family} {n : Nat}
    (h : .track n ∈ (family.read ctx fragment).events) : n < Fragment.trackCount := by
  have hkind := kind_read ctx fragment family _ h
  cases family with
  | atom =>
    refine Fragment.forall_atom (P := fun e => ∀ n, e = .track n → n < Fragment.trackCount)
      (fun parts e he n heq => ?_) (fun _ _ _ _ hread e he n heq => ?_) _ h n rfl
    · exact (Event.among_parts _ _ _ (.track n) (heq ▸ he)).steady.2.1
    · have hkind := Fragment.kind_notes hread e he
      rw [heq] at hkind
      exact absurd hkind (by simp [Event.kind, kinds])
  | selection =>
    exact (among_read ctx fragment (by decide) _ h).steady.2.1
  | note | barLine | signature | tempo | beatTime | caption | call =>
    exact absurd hkind (by simp [Event.kind, kinds])

end Family

namespace Parser

variable {P : Event R → Prop}

theorem forall_andThen {o : Outcome R} {next : Memory → Outcome R} (ho : ∀ e ∈ o.events, P e)
    (hnext : ∀ memory, ∀ e ∈ (next memory).events, P e) : ∀ e ∈ (o.andThen next).events, P e := by
  unfold Outcome.andThen
  split
  · exact ho
  · exact List.forall_mem_append.mpr ⟨ho, hnext _⟩

theorem carried_events : Carried fun _ (o : Outcome R) => ∀ e ∈ o.events, P e where
  idle _ _ := List.forall_mem_nil _
  andThen := forall_andThen

variable [Scalar R]

/-- What holds of all that a parser's families announce of pieces of the expanded text holds of all
that the parser announces between the start and the end. -/
theorem forall_readText {p : Parser R} {text : Text}
    (h : ∀ expanded, p.expand text = .ok expanded → ∀ memory t family, t <:+: expanded →
      ∀ e ∈ (Family.read (⟨p.dialect, memory⟩ : Context R) t family).events, P e) :
    ∀ e ∈ (p.readText text).events, P e := by
  unfold readText
  split
  · simp
  · rename_i expanded hexpanded
    refine carried_events.readFragments (fun memory t family ht => h expanded hexpanded memory t family ?_) _ _
    obtain ⟨fragment, hfragment, ht⟩ := ht
    exact ht.isInfix.trans (Text.infix_of_mem_fields hfragment)

end Parser

end ScoreText

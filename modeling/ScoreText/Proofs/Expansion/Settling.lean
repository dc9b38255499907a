import ScoreText.Proofs.Expansion.Fieldwise
import ScoreText.Proofs.Expansion.Fixed
import ScoreText.Proofs.Number.Written

/-!
Expansion of what has been expanded. The texts that stages write, calls of the pitch wheel among them, are
left alone by every stage, so that a text without groups is settled once it has been expanded.
-/

set_option autoImplicit false

namespace ScoreText

open Text Stage

namespace Ornaments

variable {R : Type} [Scalar R]

theorem mem_of_mapM {α β ε : Type} {f : α → Except ε β} {l : List α} {r : List β} {b : β}
    (h : l.mapM f = .ok r) (hb : b ∈ r) : ∃ a ∈ l, f a = .ok b := by
  induction l generalizing r with
  | nil =>
    cases h
    cases hb
  | cons a rest ih =>
    rw [List.mapM_cons] at h
    cases ha : f a with
    | error e =>
      rw [ha] at h
      cases h
    | ok c =>
      cases hrest : rest.mapM f with
      | error e =>
        rw [ha, hrest] at h
        cases h
      | ok cs =>
        rw [ha, hrest] at h
        cases h
        rcases List.mem_cons.mp hb with rfl | hb
        · exact ⟨a, List.mem_cons_self, ha⟩
        · obtain ⟨d, hd, hfd⟩ := ih hrest hb
          exact ⟨d, List.mem_cons_of_mem a hd, hfd⟩

theorem expandBrokenChords_parts {ctx : NoteContext R} {x y v : Text}
    (h : expandBrokenChords ctx (x ++ ' ' :: y) = .ok v) :
    ∃ a b, expandBrokenChords ctx x = .ok a ∧ expandBrokenChords ctx y = .ok b ∧ v = a ++ ' ' :: b := by
  rw [expandBrokenChords_append] at h
  cases hx : expandBrokenChords ctx x with
  | error e =>
    rw [hx] at h
    cases h
  | ok a =>
    cases hy : expandBrokenChords ctx y with
    | error e =>
      rw [hx, hy] at h
      cases h
    | ok b =>
      rw [hx, hy] at h
      exact ⟨a, b, rfl, rfl, (Except.ok.inj h).symm⟩

end Ornaments

/-- What is written of a broken chord: the note of each index, all of one length. -/
theorem Ornament.writeBroken_eq_ok {R : Type} [Scalar R] {ctx : NoteContext R} {chord indexes v : Text}
    (h : writeBroken ctx chord indexes = .ok v) :
    ∃ (c : Chord R) (played : List (Note R)), wholeChord? ctx chord = .ok (some c) ∧
      (Text.fields ',' indexes).mapM (indexed c.notes) = .ok played ∧
        v = Text.join [' '] (played.map fun n =>
          piece n.value (pieceSuffix (lengthOf ctx c.root / ((played.length : Nat) : R)) c.root)) := by
  unfold writeBroken at h
  cases hwhole : wholeChord? ctx chord with
  | error e => simp [hwhole, bind, Except.bind] at h
  | ok found =>
    cases found with
    | none => simp [hwhole, bind, Except.bind] at h
    | some c =>
      cases hplayed : (Text.fields ',' indexes).mapM (indexed c.notes) with
      | error e => simp [hwhole, hplayed, bind, Except.bind] at h
      | ok played =>
        simp only [hwhole, hplayed, bind, Except.bind, pure, Except.pure, Except.ok.injEq] at h
        exact ⟨c, played, rfl, hplayed, h.symm⟩

namespace Parser

open Expansion

variable {R : Type} [Scalar R] {p : Parser R}

/-- A text that expansion leaves alone, stage by stage. -/
structure Settled (p : Parser R) (x : Text) : Prop where
  fixed : Fixed p.dialect.functions p.context.noteContext x
  completed : p.completed x = .ok x

namespace Settled

theorem expand {x : Text} (h : p.Settled x) (hsubst : p.substitution.values.isEmpty = true) :
    p.expand x = .ok x := by
  rw [expand_fixed hsubst h.fixed]
  exact h.completed

theorem append (hp : p.Partwise) {x y : Text} (hx : p.Settled x) (hy : p.Settled y) :
    p.Settled (x ++ ' ' :: y) :=
  ⟨hx.fixed.append hy.fixed rfl (by decide),
    (completed_append hp x y _).mpr ⟨x, y, hx.completed, hy.completed, rfl⟩⟩

theorem join (hp : p.Partwise) {xs : List Text} (hne : xs ≠ []) (h : ∀ x ∈ xs, p.Settled x) :
    p.Settled (join [' '] xs) := by
  induction xs with
  | nil => exact absurd rfl hne
  | cons x rest ih =>
    obtain ⟨hx, hrest⟩ := List.forall_mem_cons.mp h
    cases rest with
    | nil => exact hx
    | cons y rest =>
      rw [Text.join, List.append_assoc, List.singleton_append]
      exact hx.append hp (ih (List.cons_ne_nil y rest) hrest)

end Settled

/-- A fragment of which there is nothing left to write out but a broken chord. -/
structure Ready (p : Parser R) (x : Text) : Prop where
  fixed : Fixed p.dialect.functions p.context.noteContext x
  space : ' ' ∉ x
  microtone : Microtone.apply x = .ok x

namespace Ready

variable {x : Text}

theorem of_head (h : Fixed p.dialect.functions p.context.noteContext x) (hspace : ' ' ∉ x)
    (hm : x.head? ≠ some 'M') : p.Ready x :=
  ⟨h, hspace, Microtone.apply_self hm hspace⟩

theorem settled (h : p.Ready x) (hstages : p.extraStages = []) (hbroken : Ornaments.broken? x = none) :
    p.Settled x := by
  have hkept : Ornaments.expandBrokenChords p.context.noteContext x = .ok x :=
    expandBrokenChords_join p.context.noteContext (List.forall_mem_singleton.mpr ⟨hbroken, h.space⟩)
  refine ⟨h.fixed, ?_⟩
  rw [completed, h.microtone]
  simp only [Except.bind, hkept, hstages]
  rfl

end Ready

section Pieces

/-- What follows the number of a note that a stage has written. -/
structure Suffixed (suffix : Text) : Prop where
  raised : ∀ c ∈ suffix, upperChar c = [c]
  parenthesis : '(' ∉ suffix
  brace : '{' ∉ suffix
  space : ' ' ∉ suffix

theorem mem_piece {value : Nat} {suffix : Text} {c : Char} (h : c ∈ Ornament.piece value suffix) :
    c = '[' ∨ c.isDigit = true ∨ c = ']' ∨ c ∈ suffix := by
  simp only [Ornament.piece, List.mem_append, List.mem_singleton] at h
  rcases h with ((h | h) | h) | h
  · exact .inl h
  · exact .inr (.inl (isDigit_of_mem_ofNat h))
  · exact .inr (.inr (.inl h))
  · exact .inr (.inr (.inr h))

theorem ready_piece {suffix : Text} (h : Suffixed suffix) (value : Nat) :
    p.Ready (Ornament.piece value suffix) := by
  have hnot : ∀ {c : Char}, c ≠ '[' → c.isDigit = false → c ≠ ']' → c ∉ suffix →
      c ∉ Ornament.piece value suffix := by
    intro c hopen hdigit hclose hc hm
    rcases mem_piece hm with rfl | hm | rfl | hm
    · exact hopen rfl
    · rw [hdigit] at hm
      cases hm
    · exact hclose rfl
    · exact hc hm
  refine .of_head (.of_ungrouped ⟨?_, ?_⟩ (Casing.apply_raised fun c hc => ?_))
    (hnot (by decide) rfl (by decide) h.space) (by simp [Ornament.piece])
  · exact hnot (by decide) rfl (by decide) h.parenthesis
  · exact hnot (by decide) rfl (by decide) h.brace
  · rcases mem_piece hc with rfl | hc | rfl | hc
    · decide
    · exact upperChar_of_isDigit hc
    · decide
    · exact h.raised c hc

variable [Scalar.Written R]

/-- A length and velocities hold no colon either. -/
theorem suffixed_pieceSuffix (length : R) (n : Note R) :
    Suffixed (Ornament.pieceSuffix length n) ∧ ':' ∉ Ornament.pieceSuffix length n := by
  have hchars : ∀ c ∈ Length.text length ++ n.velocityText, isNumberChar c = true ∨ c = '/' := by
    intro c hc
    rcases List.mem_append.mp hc with hc | hc
    · exact Length.chars_text length c hc
    · exact .inl (n.chars_velocityText c hc)
  have hascii : ∀ c ∈ Length.text length ++ n.velocityText, c.toNat < 128 := by
    intro c hc
    rcases hchars c hc with hc | rfl
    · exact lt_of_isNumberChar hc
    · decide
  have hnot : ∀ c : Char, isNumberChar c = false → c ≠ '/' → c ∉ Ornament.pieceSuffix length n := by
    intro c hnumber hslash hc
    rcases isNumberChar_upper hchars c hc with hc | rfl
    · rw [hnumber] at hc
      cases hc
    · exact hslash rfl
  exact ⟨⟨upperChar_of_mem_upper hascii, hnot _ (by decide) (by decide), hnot _ (by decide) (by decide),
    hnot _ (by decide) (by decide)⟩, hnot _ (by decide) (by decide)⟩

/-- The notes of a broken chord are settled. -/
theorem settled_broken (hp : p.Partwise) (hstages : p.extraStages = []) {ctx : NoteContext R}
    {chord indexes v : Text} (h : Ornament.writeBroken ctx chord indexes = .ok v) : p.Settled v := by
  obtain ⟨c, played, -, hplayed, rfl⟩ := Ornament.writeBroken_eq_ok h
  have hne : played ≠ [] := by
    refine List.ne_nil_of_length_pos ?_
    rw [Ornaments.length_of_mapM hplayed]
    exact List.length_pos_of_ne_nil (fields_ne_nil ',' indexes)
  generalize Ornament.lengthOf ctx c.root / ((played.length : Nat) : R) = length
  obtain ⟨hsuffix, hcolon⟩ := suffixed_pieceSuffix length c.root
  refine Settled.join hp (by simpa using hne) fun x hx => ?_
  obtain ⟨n, -, rfl⟩ := List.mem_map.mp hx
  refine (ready_piece hsuffix n.value).settled hstages ?_
  have hnone : ':' ∉ Ornament.piece n.value (Ornament.pieceSuffix length c.root) := by
    intro hm
    rcases mem_piece hm with hm | hm | hm | hm
    · exact absurd hm (by decide)
    · exact absurd hm (by decide)
    · exact absurd hm (by decide)
    · exact hcolon hm
  rw [Ornaments.broken?, cut?_none hnone]

/-- Once its broken chord is written out, if it is one, such a fragment is settled. -/
theorem Ready.unbroken (hp : p.Partwise) (hstages : p.extraStages = []) {x v : Text} (h : p.Ready x)
    (hv : Ornaments.expandBrokenChords p.context.noteContext x = .ok v) : p.Settled v := by
  have hone : Ornaments.expandBrokenChords p.context.noteContext x =
      Ornaments.expandBroken p.context.noteContext x := by
    rw [Ornaments.expandBrokenChords, fields_self h.space, List.mapM_cons, List.mapM_nil]
    cases Ornaments.expandBroken p.context.noteContext x <;> rfl
  rw [hone, Ornaments.expandBroken] at hv
  split at hv
  · exact settled_broken hp hstages hv
  · rename_i hnone
    rw [← Except.ok.inj hv]
    exact h.settled hstages hnone

end Pieces

/-- What stands behind a word in a fragment: white space other than a space, and what has been put in upper
case there. -/
inductive Trailing (f : Text) : Text → Prop where
  | nothing : Trailing f []
  | blank {c : Char} {r : Text} (hc : isBlank c = true) (hr : c :: r <:+ f) : Trailing f (c :: Casing.apply r)

/-- Only the word at the front of a fragment can be a microtone. -/
theorem tuned_front {f u : Text} (hascii : ∀ c ∈ f, c.toNat < 128) (hparen : '(' ∉ f) (hspace : ' ' ∉ f)
    (hu : tuned f = .ok u) :
    u = Casing.apply f ∧ Microtone.apply u = .ok u ∨
      ∃ bend note suffix trail, Trailing f trail ∧ (∀ c ∈ suffix, upperChar c = [c]) ∧
        suffix ⊆ Casing.apply f ∧
        u = Microtone.wheelCall bend ++ ' ' :: (Ornament.piece note suffix ++
          ' ' :: (Microtone.wheelCall Microtone.wheelCentre ++ trail)) := by
  obtain ⟨w, trail, hw, hwf, htrail, hcased, htuned⟩ : ∃ w trail, IsWord w ∧ w ⊆ f ∧ Trailing f trail ∧
      Casing.apply f = Casing.apply w ++ trail ∧
        tuned f = (Microtone.apply (Casing.apply w)).map (· ++ trail) := by
    rcases word_or_split f with hf | ⟨w, c, r, rfl, hw, hc⟩
    · refine ⟨f, [], hf, List.Subset.refl f, .nothing, (List.append_nil _).symm, ?_⟩
      rw [tuned]
      cases Microtone.apply (Casing.apply f) <;> simp [Except.map]
    · have hne : c ≠ ' ' := fun he => hspace (by simp [he])
      have hr : ' ' ∉ Casing.apply r :=
        Casing.not_mem_apply_ascii (fun d hd => hascii d (by simp [hd])) rfl fun hm => hspace (by simp [hm])
      have hcased := Casing.apply_blank (fun hm => hparen (List.mem_append_left _ hm)) hc
        (hascii c (by simp)) r
      refine ⟨w, c :: Casing.apply r, hw, List.subset_append_left _ _, .blank hc (List.suffix_append w _),
        hcased, ?_⟩
      rw [tuned, hcased, Microtone.apply_blank hc hne _ hr]
  have hword := Casing.isWord_apply (fun c hc => hascii c (hwf hc)) hw
  rcases Microtone.apply_word hword with hnone | ⟨frequency, suffix, hhead, hsuffix, hrender⟩
  · left
    have hsame : tuned f = .ok (Casing.apply f) := by
      rw [htuned, hnone, hcased]
      rfl
    obtain rfl := Except.ok.inj (hu.symm.trans hsame)
    exact ⟨rfl, hsame⟩
  · right
    have hupper : Casing.apply w = upper w := by
      rcases Casing.apply_word hw (fun hm => hparen (hwf hm)) with ⟨hspared, hnot⟩ | hupper
      · rw [hspared] at hhead
        exact absurd hhead hnot
      · exact hupper
    rw [htuned, hrender] at hu
    cases hv : Microtone.render ⟨[], frequency, suffix⟩ with
    | error e =>
      rw [hv] at hu
      cases hu
    | ok v =>
      obtain ⟨bend, note, rfl⟩ := Microtone.render_eq hv
      rw [hv] at hu
      refine ⟨bend, note, suffix, trail, htrail, fun c hc => ?_, fun c hc => ?_, ?_⟩
      · exact upperChar_of_mem_upper (fun d hd => hascii d (hwf hd)) c (hupper ▸ hsuffix hc)
      · rw [hcased]
        exact List.mem_append_left _ (hsuffix hc)
      · rw [← Except.ok.inj hu]
        simp only [List.append_assoc, List.cons_append]

section Microtones

theorem calling_wheel (value : Nat) : Calling "PITCHWHEEL".toList (ofNat value) :=
  ⟨by decide, by decide, fun _ hc => .inl (isDigit_of_mem_ofNat hc)⟩

theorem wheelCall_eq (value : Nat) :
    Microtone.wheelCall value = Calling.text "PITCHWHEEL".toList (ofNat value) := by
  have hlead : ":PITCHWHEEL(".toList = ':' :: ("PITCHWHEEL".toList ++ ['(']) := by decide
  unfold Microtone.wheelCall Calling.text
  rw [hlead]
  simp only [List.cons_append, List.append_assoc, List.nil_append]

variable (hwheel : p.dialect.functions.ornament? "PITCHWHEEL".toList = none)

include hwheel

/-- A call of the pitch wheel stays, also with what stood behind the microtone. -/
theorem ready_wheel {f trail : Text} (hascii : ∀ c ∈ f, c.toNat < 128) (h : Ungrouped f) (hspace : ' ' ∉ f)
    (htrail : Trailing f trail) (value : Nat) : p.Ready (Microtone.wheelCall value ++ trail) := by
  have hcall : Fixed p.dialect.functions p.context.noteContext (Microtone.wheelCall value) := by
    rw [wheelCall_eq]
    exact .of_calling (calling_wheel value) hwheel
  have hcallSpace : ' ' ∉ Microtone.wheelCall value := by
    rw [wheelCall_eq]
    exact (calling_wheel value).not_mem rfl rfl (by decide)
  have hhead : (Microtone.wheelCall value ++ trail).head? ≠ some 'M' := by
    rw [wheelCall_eq]
    simp [Calling.text]
  cases htrail with
  | nothing =>
    rw [List.append_nil] at hhead ⊢
    exact .of_head hcall hcallSpace hhead
  | @blank c r hc hr =>
    have hsub : ∀ d ∈ r, d ∈ f := fun d hd => hr.subset (List.mem_cons_of_mem c hd)
    have hrascii : ∀ d ∈ r, d.toNat < 128 := fun d hd => hascii d (hsub d hd)
    have hrparen : '(' ∉ r := fun hm => h.parenthesis (hsub _ hm)
    have hrest : Ungrouped (Casing.apply r) :=
      ⟨Casing.not_mem_apply hrparen, Casing.not_mem_apply_ascii hrascii rfl fun hm => h.brace (hsub _ hm)⟩
    have hcf : c ∈ f := hr.subset List.mem_cons_self
    refine .of_head (hcall.append (.of_ungrouped hrest (Casing.apply_apply hrascii hrparen)) hc (hascii c hcf))
      ?_ hhead
    rw [List.mem_append, List.mem_cons]
    rintro (hm | rfl | hm)
    · exact hcallSpace hm
    · exact hspace hcf
    · exact Casing.not_mem_apply_ascii hrascii rfl (fun hm => hspace (hsub _ hm)) hm

/-- What becomes of a field is settled. -/
theorem settled_field [Scalar.Written R] (hp : p.Partwise) (hstages : p.extraStages = []) {f u v : Text}
    (hascii : ∀ c ∈ f, c.toNat < 128) (h : Ungrouped f) (hspace : ' ' ∉ f) (hu : tuned f = .ok u)
    (hv : Ornaments.expandBrokenChords p.context.noteContext u = .ok v) : p.Settled v := by
  have hcased : Ungrouped (Casing.apply f) :=
    ⟨Casing.not_mem_apply h.parenthesis, Casing.not_mem_apply_ascii hascii rfl h.brace⟩
  have hcasedSpace : ' ' ∉ Casing.apply f := Casing.not_mem_apply_ascii hascii rfl hspace
  rcases tuned_front hascii h.parenthesis hspace hu with ⟨rfl, hmicrotone⟩ |
    ⟨bend, note, suffix, trail, htrail, hraised, hsub, rfl⟩
  · have hready : p.Ready (Casing.apply f) :=
      ⟨.of_ungrouped hcased (Casing.apply_apply hascii h.parenthesis), hcasedSpace, hmicrotone⟩
    exact hready.unbroken hp hstages hv
  · -- The bend, the note and the wheel's return are fragments of their own.
    obtain ⟨first, rest, hfirst, hrest, rfl⟩ := Ornaments.expandBrokenChords_parts hv
    obtain ⟨middle, last, hmiddle, hlast, rfl⟩ := Ornaments.expandBrokenChords_parts hrest
    have hsuffix : Suffixed suffix := ⟨hraised, fun hm => hcased.parenthesis (hsub hm),
      fun hm => hcased.brace (hsub hm), fun hm => hcasedSpace (hsub hm)⟩
    have hbend := ready_wheel hwheel hascii h hspace .nothing bend
    rw [List.append_nil] at hbend
    exact (hbend.unbroken hp hstages hfirst).append hp
      (((ready_piece hsuffix note).unbroken hp hstages hmiddle).append hp
        ((ready_wheel hwheel hascii h hspace htrail _).unbroken hp hstages hlast))

end Microtones

/-- Once expanded, a text of ASCII without groups and instructions is not changed by expanding it again. The
pitch wheel, which microtones are written with, must not have been made an ornament. -/
theorem expand_expanded [Scalar.Written R] (hsubst : p.substitution.values.isEmpty = true)
    (hstages : p.extraStages = []) (hwheel : p.dialect.functions.ornament? "PITCHWHEEL".toList = none)
    {s t : Text} (hascii : ∀ c ∈ s, c.toNat < 128) (hs : Ungrouped s) (h : p.expand s = .ok t) :
    p.expand t = .ok t := by
  have hp : p.Partwise := ⟨hsubst, by simp [hstages]⟩
  rw [expand_fields hsubst hstages hs] at h
  cases hus : (Text.fields ' ' s).mapM tuned with
  | error e =>
    rw [hus] at h
    cases h
  | ok us =>
    rw [hus] at h
    cases hvs : us.mapM (Ornaments.expandBrokenChords p.context.noteContext) with
    | error e =>
      simp only [Except.bind, hvs] at h
      cases h
    | ok vs =>
      simp only [Except.bind, hvs, Except.map, Except.ok.injEq] at h
      rw [← h]
      refine (Settled.join hp ?_ fun v hv => ?_).expand hsubst
      · refine List.ne_nil_of_length_pos ?_
        rw [Ornaments.length_of_mapM hvs, Ornaments.length_of_mapM hus]
        exact List.length_pos_of_ne_nil (fields_ne_nil ' ' s)
      · obtain ⟨u, hu, huv⟩ := Ornaments.mem_of_mapM hvs hv
        obtain ⟨f, hf, hfu⟩ := Ornaments.mem_of_mapM hus hu
        have hsub : f ⊆ s := (infix_of_mem_fields hf).subset
        exact settled_field hwheel hp hstages (fun c hc => hascii c (hsub hc))
          ⟨fun hm => hs.parenthesis (hsub hm), fun hm => hs.brace (hsub hm)⟩ (not_mem_of_mem_fields hf) hfu huv

/-- A broken chord, words that are spared and notes behind a tab. -/
theorem settled_song :
    let p := (standard : Parser Rat)
    let song := "[48]H [55]H &La C5Q\tD5Q @#Verse".toList
    p.expand "cmajw:0,2 &La c5q\td5q @#Verse".toList = .ok song ∧ p.expand song = .ok song := by
  intro p song
  have hsong : p.expand "cmajw:0,2 &La c5q\td5q @#Verse".toList = .ok song := by decide +kernel
  exact ⟨hsong, expand_expanded rfl rfl (by decide) (by decide) (by decide) hsong⟩

end Parser

end ScoreText

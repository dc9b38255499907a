import Mathlib.Data.List.MinMax
import ScoreText.Proofs.Expansion.Stages
import ScoreText.Proofs.Text.Splitting

/-!
Instructions in braces depend on nothing but the table of those registered. A text parts in one way into the
contents of braces and what stands around them; the latter stays, and the former become what the instruction of
the longest key that starts them makes of them, in whatever order the table is gone through.
-/

set_option autoImplicit false

namespace ScoreText

namespace Instructions

open Text

/-! ### Texts with braces -/

/-- What is in a pair of braces, and what stands between them and the pair before. -/
structure Span where
  before : Text
  contents : Text

/-- Spans one after another, and what follows the last. -/
structure Parted where
  spans : List Span
  rest : Text

namespace Parted

/-- A span in front of others. -/
def cons (s : Span) (p : Parted) : Parted := ⟨s :: p.spans, p.rest⟩

def text (p : Parted) : Text := p.spans.flatMap (fun s => s.before ++ '{' :: (s.contents ++ ['}'])) ++ p.rest

/-- Every brace that opens a span is the first that can, and every brace that closes it the next. -/
structure Leftmost (p : Parted) : Prop where
  before : ∀ s ∈ p.spans, '{' ∉ s.before
  contents : ∀ s ∈ p.spans, '}' ∉ s.contents
  rest : ∀ a b, p.rest = a ++ '{' :: b → '}' ∉ b

/-- The text with other contents instead of the spans, or the first failure to give any. -/
def expand (p : Parted) (f : Text → Except Error Text) : Except Error Text := do
  let parts ← p.spans.mapM fun s => do return s.before ++ (← f s.contents)
  return parts.flatten ++ p.rest

theorem text_cons (s : Span) (p : Parted) :
    (p.cons s).text = s.before ++ '{' :: (s.contents ++ '}' :: p.text) := by
  simp [text, cons]

theorem expand_cons (s : Span) (p : Parted) (f : Text → Except Error Text) :
    (p.cons s).expand f = (do
      let head ← f s.contents
      return s.before ++ (head ++ (← p.expand f))) := by
  simp only [expand, cons, List.mapM_cons]
  cases f s.contents with
  | error _ => rfl
  | ok head =>
    cases p.spans.mapM fun s => do return s.before ++ (← f s.contents) with
    | error _ => rfl
    | ok parts => exact congrArg Except.ok (by simp)

theorem leftmost_cons {s : Span} {p : Parted} :
    (p.cons s).Leftmost ↔ ('{' ∉ s.before ∧ '}' ∉ s.contents) ∧ p.Leftmost := by
  constructor
  · rintro ⟨hbefore, hcontents, hrest⟩
    obtain ⟨hb, hbs⟩ := List.forall_mem_cons.mp hbefore
    obtain ⟨hc, hcs⟩ := List.forall_mem_cons.mp hcontents
    exact ⟨⟨hb, hc⟩, hbs, hcs, hrest⟩
  · rintro ⟨⟨hb, hc⟩, hbs, hcs, hrest⟩
    exact ⟨List.forall_mem_cons.mpr ⟨hb, hbs⟩, List.forall_mem_cons.mpr ⟨hc, hcs⟩, hrest⟩

/-- Where no brace is closed after the first that opens, none is closed after a later one. -/
theorem not_mem_of_later {before r a b : Text} (hr : '}' ∉ r) (hbefore : '{' ∉ before)
    (h : before ++ '{' :: r = a ++ '{' :: b) : '}' ∉ b := by
  have hb : b <:+ r := by
    rcases List.append_eq_append_iff.mp h with ⟨more, rfl, hmore⟩ | ⟨more, rfl, hmore⟩
    · cases more with
      | nil => exact (List.cons.inj hmore).2 ▸ List.suffix_refl r
      | cons c more => exact (List.cons.inj hmore).2 ▸ (List.suffix_cons '{' b).trans (List.suffix_append more _)
    · cases more with
      | nil => exact (List.cons.inj hmore).2 ▸ List.suffix_refl b
      | cons c more =>
        obtain ⟨rfl, -⟩ := List.cons.inj hmore
        exact absurd (List.mem_append_right a List.mem_cons_self) hbefore
  exact fun hmem => hr (hb.subset hmem)

theorem exists_leftmost (s : Text) : ∃ p : Parted, p.Leftmost ∧ p.text = s := by
  induction hlen : s.length using Nat.strong_induction_on generalizing s with
  | _ n ih =>
    -- Without a pair of braces everything is rest.
    have hall : (∀ a b, s = a ++ '{' :: b → '}' ∉ b) → ∃ p : Parted, p.Leftmost ∧ p.text = s := fun h =>
      ⟨⟨[], s⟩, ⟨by simp, by simp, h⟩, rfl⟩
    by_cases hopen : '{' ∈ s
    · obtain ⟨before, r, rfl, hbefore⟩ := List.eq_append_cons_of_mem hopen
      by_cases hclose : '}' ∈ r
      · obtain ⟨contents, after, rfl, hcontents⟩ := List.eq_append_cons_of_mem hclose
        obtain ⟨p, hp, rfl⟩ := ih after.length (by simp at hlen; omega) after rfl
        exact ⟨p.cons ⟨before, contents⟩, leftmost_cons.mpr ⟨⟨hbefore, hcontents⟩, hp⟩, text_cons _ _⟩
      · exact hall fun a b => not_mem_of_later hclose hbefore
    · exact hall fun a b h => absurd (h ▸ List.mem_append_right a List.mem_cons_self) hopen

/-- A text that is all rest has no spans. -/
theorem Leftmost.text_ne {p q : Parted} {s : Span} (hp : p.Leftmost) (hempty : p.spans = []) :
    p.text ≠ (q.cons s).text := by
  intro h
  rw [text_cons, text, hempty, List.flatMap_nil, List.nil_append] at h
  exact hp.rest _ _ h (List.mem_append_right s.contents List.mem_cons_self)

theorem Leftmost.unique {p q : Parted} (hp : p.Leftmost) (hq : q.Leftmost) (h : p.text = q.text) : p = q := by
  obtain ⟨spans, rest⟩ := p
  obtain ⟨spans', rest'⟩ := q
  induction spans generalizing spans' with
  | nil =>
    cases spans' with
    | nil => exact congrArg (Parted.mk []) h
    | cons t ts => exact absurd h (hp.text_ne (q := ⟨ts, rest'⟩) rfl)
  | cons s ss ih =>
    cases spans' with
    | nil => exact absurd h.symm (hq.text_ne (q := ⟨ss, rest⟩) rfl)
    | cons t ts =>
      obtain ⟨⟨hb, hc⟩, hp⟩ := leftmost_cons (p := ⟨ss, rest⟩).mp hp
      obtain ⟨⟨hb', hc'⟩, hq⟩ := leftmost_cons (p := ⟨ts, rest'⟩).mp hq
      have htext : (cons s ⟨ss, rest⟩).text = (cons t ⟨ts, rest'⟩).text := h
      rw [text_cons, text_cons] at htext
      obtain ⟨hbefore, hrest⟩ := append_sep_inj hb hb' htext
      obtain ⟨hcontents, hrest⟩ := append_sep_inj hc hc' hrest
      obtain ⟨rfl, rfl⟩ := Parted.mk.inj (ih hp ts hq hrest)
      obtain rfl : s = t := by
        cases s
        cases t
        exact congrArg₂ Span.mk hbefore hcontents
      rfl

end Parted

/-! ### Spans are what is found -/

theorem pieces_plain {u : Text} (h : '{' ∉ u) (s : Text) :
    pieces findBraces (u ++ s) = u.map .kept ++ pieces findBraces s := by
  induction u with
  | nil => rfl
  | cons c r ih =>
    obtain ⟨hc, hr⟩ := not_or.mp (mt List.mem_cons.mpr h)
    rw [List.cons_append, pieces_kept (fun _ _ _ => rfl) (Expansion.findBraces_none (Ne.symm hc) [] _), ih hr]
    rfl

theorem pieces_braces {contents : Text} (h : '}' ∉ contents) (s : Text) :
    pieces findBraces ('{' :: (contents ++ '}' :: s)) = .found contents :: pieces findBraces s := by
  have hfind : findBraces [] ('{' :: (contents ++ ['}']) ++ s) = some ⟨contents, contents.length + 2⟩ := by
    rw [List.cons_append, List.append_assoc, List.singleton_append, findBraces, cut?_append h]
    rfl
  have := pieces_found (fun _ _ _ => rfl) (List.cons_ne_nil _ _) hfind (by simp)
  simpa using this

theorem pieces_rest {s : Text} (h : ∀ a b, s = a ++ '{' :: b → '}' ∉ b) : pieces findBraces s = s.map .kept := by
  refine piecesFrom_of_none (fun behind c r hsuffix => ?_) []
  by_cases hc : c = '{'
  · subst hc
    obtain ⟨a, rfl⟩ := hsuffix
    rw [findBraces, cut?_none (h a r rfl)]
    rfl
  · exact Expansion.findBraces_none hc behind r

/-- What contents become takes the place of the braces around them, and everything else stays. -/
theorem renderPiecesOr_parted (f : Text → Except Error Text) {p : Parted} (h : p.Leftmost) :
    renderPiecesOr f (pieces findBraces p.text) = p.expand f := by
  obtain ⟨spans, rest⟩ := p
  induction spans with
  | nil => exact (congrArg _ (pieces_rest h.rest)).trans (renderPiecesOr_kept f rest)
  | cons s ss ih =>
    obtain ⟨⟨hbefore, hcontents⟩, hp⟩ := Parted.leftmost_cons (p := ⟨ss, rest⟩).mp h
    have htext : Parted.text ⟨s :: ss, rest⟩ = _ := Parted.text_cons s ⟨ss, rest⟩
    have hexpand : Parted.expand ⟨s :: ss, rest⟩ f = _ := Parted.expand_cons s ⟨ss, rest⟩ f
    rw [htext, pieces_plain hbefore, pieces_braces hcontents, renderPiecesOr_kept_append, renderPiecesOr, ih hp,
      hexpand]
    cases f s.contents with
    | error _ => rfl
    | ok head => cases Parted.expand ⟨ss, rest⟩ f <;> rfl

/-! ### Longest keys -/

variable {t : Instructions} {contents : Text}

/-- No registered key that starts the contents has more bytes. -/
structure Longest (t : Instructions) (contents key : Text) (i : Instruction) : Prop where
  registered : t.get? key = some i
  starts : key <+: contents
  longest : ∀ other j, t.get? other = some j → other <+: contents → byteSize other ≤ byteSize key

theorem Longest.unique {k l : Text} {i j : Instruction} (hk : Longest t contents k i) (hl : Longest t contents l j) :
    l = k ∧ j = i := by
  have hlk := prefix_of_byteSize_le hl.starts hk.starts (hk.longest l j hl.registered hl.starts)
  have hkl := prefix_of_byteSize_le hk.starts hl.starts (hl.longest k i hk.registered hk.starts)
  obtain rfl := hlk.eq_of_length_le hkl.length_le
  exact ⟨rfl, Option.some.inj (hl.registered.symm.trans hk.registered)⟩

theorem longest?_none (h : t.longest? contents = none) {key : Text} {i : Instruction} (hkey : t.get? key = some i) :
    ¬ key <+: contents := by
  intro hstarts
  have hlen : key.length ∈ (List.range (contents.length + 1)).reverse := by
    simpa using Nat.lt_succ_of_le hstarts.length_le
  have hnone := List.findSome?_eq_none_iff.mp h key.length hlen
  rw [← List.prefix_iff_eq_take.mp hstarts, hkey] at hnone
  cases hnone

theorem longest?_some {i : Instruction} (h : t.longest? contents = some i) :
    ∃ key, Longest t contents key i := by
  obtain ⟨longer, n, shorter, hrange, hkey, hnone⟩ := List.findSome?_eq_some_iff.mp h
  refine ⟨contents.take n, hkey, List.take_prefix n contents, fun other j hother hstarts => ?_⟩
  have htake := List.prefix_iff_eq_take.mp hstarts
  have hlen : other.length ∈ longer ++ n :: shorter := by
    rw [← hrange]
    simpa using Nat.lt_succ_of_le hstarts.length_le
  have hle : other.length ≤ n := by
    have hdescending := List.pairwise_reverse.mpr (List.pairwise_lt_range (n := contents.length + 1))
    rw [hrange, List.pairwise_append, List.pairwise_cons] at hdescending
    rcases List.mem_append.mp hlen with hmem | hmem
    · have := hnone _ hmem
      rw [← htake, hother] at this
      cases this
    · rcases List.mem_cons.mp hmem with heq | hmem
      · exact Nat.le_of_eq heq
      · exact Nat.le_of_lt (hdescending.2.1.1 _ hmem)
  obtain ⟨more, hmore⟩ : other <+: contents.take n := by
    rw [htake]
    exact List.take_prefix_take_left hle
  rw [← hmore, byteSize_append]
  exact Nat.le_add_right _ _

theorem Longest.longest? {key : Text} {i : Instruction} (h : Longest t contents key i) :
    t.longest? contents = some i := by
  cases hlongest : t.longest? contents with
  | none => exact absurd h.starts (longest?_none hlongest h.registered)
  | some j =>
    obtain ⟨l, hl⟩ := longest?_some hlongest
    rw [(h.unique hl).2]

/-- The last of the words of contents that spaces part, which an instruction takes as its argument. -/
def lastWord (contents : Text) : Text := ((fields ' ' contents).getLast?).getD []

theorem expandContents_cases (t : Instructions) (contents : Text) :
    ((∀ key i, t.get? key = some i → ¬ key <+: contents) ∧ t.expandContents contents = .ok contents) ∨
      ∃ key i, Longest t contents key i ∧ (∀ l j, Longest t contents l j → l = key ∧ j = i) ∧
        t.expandContents contents = i.expand (lastWord contents) := by
  cases h : t.longest? contents with
  | none => exact .inl ⟨fun key i hkey => longest?_none h hkey, by rw [expandContents, h]⟩
  | some i =>
    obtain ⟨key, hkey⟩ := longest?_some h
    exact .inr ⟨key, i, hkey, fun l j => hkey.unique, by rw [expandContents, h]; rfl⟩

/-! ### Tables gone through in any order -/

/-- These are the entries of a table, in some order. -/
def Lists (listing : List (Text × Instruction)) (t : Instructions) : Prop :=
  ∀ key i, (key, i) ∈ listing ↔ t.get? key = some i

/-- Of the entries whose key starts the contents, the last among those with most bytes. -/
def longestIn (listing : List (Text × Instruction)) (contents : Text) : Option Instruction :=
  ((listing.filter fun e => e.1.isPrefixOf contents).reverse.argmax fun e => byteSize e.1).map Prod.snd

def expandIn (listing : List (Text × Instruction)) (contents : Text) : Except Error Text :=
  match longestIn listing contents with
  | some i => i.expand (lastWord contents)
  | none => .ok contents

/-- As `Instructions.apply`, for a table whose entries are gone through one by one. -/
def applyIn (listing : List (Text × Instruction)) (text : Text) : Except Error Text :=
  renderPiecesOr (expandIn listing) (pieces findBraces text)

variable {listing : List (Text × Instruction)}

theorem Lists.longestIn (h : Lists listing t) (contents : Text) : longestIn listing contents = t.longest? contents := by
  have hmem : ∀ e, e ∈ (listing.filter fun e => e.1.isPrefixOf contents).reverse ↔
      t.get? e.1 = some e.2 ∧ e.1 <+: contents := fun e => by
    rw [List.mem_reverse, List.mem_filter, h e.1 e.2, List.isPrefixOf_iff_prefix]
  rw [Instructions.longestIn]
  cases hmax : List.argmax (fun e : Text × Instruction => byteSize e.1) _ with
  | none =>
    symm
    refine Option.eq_none_iff_forall_ne_some.mpr fun i hi => ?_
    obtain ⟨key, hkey⟩ := longest?_some hi
    have := (hmem (key, i)).mpr ⟨hkey.registered, hkey.starts⟩
    rw [List.argmax_eq_none.mp hmax] at this
    cases this
  | some e =>
    obtain ⟨hregistered, hstarts⟩ := (hmem e).mp (List.argmax_mem hmax)
    refine (Longest.longest? ⟨hregistered, hstarts, fun other j hother hstarts => ?_⟩).symm
    have hother := (hmem (other, j)).mpr ⟨hother, hstarts⟩
    exact List.le_of_mem_argmax (f := fun e : Text × Instruction => byteSize e.1) hother hmax

theorem Lists.applyIn (h : Lists listing t) (text : Text) : applyIn listing text = t.apply text := by
  have hexpand : expandIn listing = t.expandContents := funext fun contents => by
    rw [expandIn, h.longestIn, expandContents]
    rfl
  rw [Instructions.applyIn, hexpand, apply]

/-! ### Instructions added and removed -/

inductive Change where
  | add (key : Text) (instruction : Instruction)
  | remove (key : Text)

def change (t : Instructions) : Change → Instructions
  | .add key instruction => t.insert key instruction
  | .remove key => t.erase key

/-- What is registered after changes from the start. -/
def registered (history : List Change) : Instructions := history.foldl change .empty

theorem nodup_change (h : (t.entries.map Prod.fst).Nodup) (x : Change) :
    ((change t x).entries.map Prod.fst).Nodup := by
  have herase : ∀ key, ((t.erase key).entries.map Prod.fst).Nodup := fun key =>
    h.sublist (List.filter_sublist.map Prod.fst)
  cases x with
  | add key i =>
    refine List.nodup_cons.mpr ⟨fun hmem => ?_, herase key⟩
    obtain ⟨e, he, rfl⟩ := List.mem_map.mp hmem
    simpa using (List.mem_filter.mp he).2
  | remove key => exact herase key

theorem lists_registered (history : List Change) : Lists (registered history).entries (registered history) := by
  have hnodup : ∀ t : Instructions, (t.entries.map Prod.fst).Nodup →
      ((history.foldl change t).entries.map Prod.fst).Nodup := by
    induction history with
    | nil => exact fun _ h => h
    | cons x rest ih => exact fun t h => ih _ (nodup_change h x)
  exact fun key i => (Table.lookup_eq_some_iff_of_nodup (hnodup .empty List.nodup_nil) key i).symm

theorem Lists.of_same {u : Instructions} (hsame : ∀ key, u.get? key = t.get? key) (h : Lists listing u) :
    Lists listing t := fun key i => by rw [h key i, hsame]

/-- A text parts in one way into braces, each opened by the first that can and closed by the next, and what
stands around them. Whatever instructions were added and removed, the latter is kept, and contents that no
key starts are kept without their braces; of the keys that start other contents one is the longest, and its
instruction tells for their last word what they become. Any changes that leave the same instruction for every
key lead to the same text, in whatever order the entries that they leave are gone through. -/
theorem expanded_by_longest_key (history : List Change) (text : Text) :
    (∃ p : Parted, p.Leftmost ∧ p.text = text ∧ (∀ q : Parted, q.Leftmost → q.text = text → q = p) ∧
      (registered history).apply text = p.expand (registered history).expandContents) ∧
    (∀ contents,
      ((∀ key i, (registered history).get? key = some i → ¬ key <+: contents) ∧
        (registered history).expandContents contents = .ok contents) ∨
      ∃ key i, Longest (registered history) contents key i ∧
        (∀ l j, Longest (registered history) contents l j → l = key ∧ j = i) ∧
        (registered history).expandContents contents = i.expand (lastWord contents)) ∧
    Lists (registered history).entries (registered history) ∧
    ∀ other : List Change, (∀ key, (registered other).get? key = (registered history).get? key) →
      (registered other).apply text = (registered history).apply text ∧
      ∀ listing, Lists listing (registered other) → applyIn listing text = (registered history).apply text := by
  refine ⟨?_, expandContents_cases _, lists_registered history, fun other hsame => ?_⟩
  · obtain ⟨p, hp, rfl⟩ := Parted.exists_leftmost text
    exact ⟨p, hp, rfl, fun q hq htext => hq.unique hp htext, renderPiecesOr_parted _ hp⟩
  · have hany : ∀ listing, Lists listing (registered other) →
        applyIn listing text = (registered history).apply text := fun listing hlists =>
      (hlists.of_same hsame).applyIn text
    exact ⟨((lists_registered other).applyIn text).symm.trans (hany _ (lists_registered other)), hany⟩

def sus : Text := ['S', 'u', 's']

def sustain : Text := ['S', 'u', 's', 't', 'a', 'i', 'n']

def pedal : Instruction := .switch ":CE(64,$)".toList ['0'] "127".toList

/-- Two keys, one of which starts the other. -/
def pedals : List Change := [.add sus (.constant ['A']), .add sustain pedal]

/-- The same in the other order, with what did not stay. -/
def pedalsAgain : List Change :=
  [.add sustain (.constant ['B']), .add ['{'] (.constant ['C']), .add sustain pedal, .remove ['{'],
    .add sus (.constant ['A'])]

theorem entries_pedals :
    (registered pedals).entries = [(sustain, pedal), (sus, .constant ['A'])] ∧
      (registered pedalsAgain).entries = [(sus, .constant ['A']), (sustain, pedal)] := ⟨rfl, rfl⟩

theorem pedals_same (key : Text) : (registered pedalsAgain).get? key = (registered pedals).get? key := by
  have hne : sus ≠ sustain := by decide
  simp only [Table.get?, entries_pedals, Table.lookup_cons_if]
  by_cases hkey : key = sus
  · rw [hkey, if_pos rfl, if_neg hne, if_pos rfl]
  · rw [if_neg hkey, if_neg hkey]

/-- Braces that open within others, and ones that nothing closes. -/
def pedalText : Text := "\x7bSustain ON\x7d é \x7bSus\x7d\x7bC \x7b\x7d \x7d\x7b".toList

/-- The longer key wins where it can, whichever was added first. -/
theorem pedals_win :
    (∀ key, (registered pedalsAgain).get? key = (registered pedals).get? key) ∧
      (registered pedals).apply pedalText = .ok ":CE(64,127) é AC \x7b \x7d\x7b".toList ∧
      applyIn (registered pedalsAgain).entries pedalText = .ok ":CE(64,127) é AC \x7b \x7d\x7b".toList ∧
      applyIn (registered pedals).entries pedalText = .ok ":CE(64,127) é AC \x7b \x7d\x7b".toList := by
  have hpedals : (registered pedals).apply pedalText = .ok ":CE(64,127) é AC \x7b \x7d\x7b".toList := by
    decide +kernel
  obtain ⟨-, -, hlists, hsame⟩ := expanded_by_longest_key pedals pedalText
  obtain ⟨-, -, hlistsAgain, -⟩ := expanded_by_longest_key pedalsAgain pedalText
  refine ⟨pedals_same, hpedals, ?_, ?_⟩
  · rw [(hsame pedalsAgain pedals_same).2 _ hlistsAgain, hpedals]
  · rw [(hsame pedals fun _ => rfl).2 _ hlists, hpedals]

end Instructions

end ScoreText

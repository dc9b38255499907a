/-!
Text as a list of characters, with the cutting and joining that notation needs. Sizes in bytes are
those of the UTF-8 form; positions are counted in characters.
-/

set_option autoImplicit false

namespace ScoreText

abbrev Text := List Char

namespace Text

-- These come before other instances: characters are finitely many, but too many to try them all.
instance (priority := high) decidableForall (t : Text) (p : Char → Prop) [DecidablePred p] :
    Decidable (∀ c ∈ t, p c) := List.decidableBAll p t

instance (priority := high) decidableExists (t : Text) (p : Char → Prop) [DecidablePred p] :
    Decidable (∃ c ∈ t, p c) := List.decidableBEx p t

/-- The number of bytes of the UTF-8 form. -/
def byteSize : Text → Nat
  | [] => 0
  | c :: r => c.utf8Size + byteSize r

theorem byteSize_append (s t : Text) : byteSize (s ++ t) = byteSize s + byteSize t := by
  induction s with
  | nil => simp [byteSize]
  | cons c r ih => simp [byteSize, ih, Nat.add_assoc]

/-- The texts in order with `sep` between neighbours. -/
def join (sep : Text) : List Text → Text
  | [] => []
  | [t] => t
  | t :: u :: rest => t ++ sep ++ join sep (u :: rest)

/-- The fields between occurrences of `sep`: always one more than there are occurrences. -/
def fields (sep : Char) : Text → List Text
  | [] => [[]]
  | c :: r =>
    if c = sep then [] :: fields sep r
    else
      match fields sep r with
      | [] => [[c]]
      | f :: fs => (c :: f) :: fs

theorem fields_ne_nil (sep : Char) (s : Text) : fields sep s ≠ [] := by
  cases s with
  | nil => simp [fields]
  | cons c r =>
    simp only [fields]
    split
    · simp
    · split <;> simp

/-- Joining the fields again gives the text back. -/
theorem join_fields (sep : Char) (s : Text) : join [sep] (fields sep s) = s := by
  induction s with
  | nil => simp [fields, join]
  | cons c r ih =>
    have hne := fields_ne_nil sep r
    simp only [fields]
    cases hf : fields sep r with
    | nil => exact absurd hf hne
    | cons f fs =>
      rw [hf] at ih
      by_cases hc : c = sep
      · simp [hc, join, ih]
      · simp only [hc, if_false]
        cases fs with
        | nil => simp_all [join]
        | cons g gs => simp_all [join]

/-- The parts before and after the first `sep`. -/
def cut? (sep : Char) : Text → Option (Text × Text)
  | [] => none
  | c :: r => if c = sep then some ([], r) else (cut? sep r).map fun (a, b) => (c :: a, b)

/-- The parts before and after the last `sep`. -/
def cutLast? (sep : Char) (s : Text) : Option (Text × Text) :=
  (cut? sep s.reverse).map fun (a, b) => (b.reverse, a.reverse)

/-- What follows `lead`, when the text starts with it. -/
def after? (lead s : Text) : Option Text :=
  if lead.isPrefixOf s then some (s.drop lead.length) else none

/-- What precedes `tail`, when the text ends with it. -/
def before? (tail s : Text) : Option Text :=
  if tail.isSuffixOf s then some (s.take (s.length - tail.length)) else none

/-- The first occurrence of the character becomes `value`. -/
def replaceFirst (mark : Char) (value : Text) : Text → Text
  | [] => []
  | c :: r => if c = mark then value ++ r else c :: replaceFirst mark value r

/-- Every occurrence of the character becomes `value`. -/
def replaceChar (mark value : Char) (s : Text) : Text :=
  s.map fun c => if c = mark then value else c

/-- The text padded with spaces on the right to a width in characters. -/
def padRight (width : Nat) (s : Text) : Text := s ++ List.replicate (width - s.length) ' '

/-- The text padded with spaces on the left to a width in characters. -/
def padLeft (width : Nat) (s : Text) : Text := List.replicate (width - s.length) ' ' ++ s

/-- Texts equal but for the case of ASCII letters. -/
def sameIgnoringAsciiCase (s t : Text) : Bool := s.map Char.toLower == t.map Char.toLower

/-- Decimal digits of a natural number. -/
def ofNat (n : Nat) : Text := Nat.toDigits 10 n

/-- Decimal digits of an integer, with a minus sign when it is negative. -/
def ofInt (n : Int) : Text := if n < 0 then '-' :: ofNat n.natAbs else ofNat n.natAbs

end Text

end ScoreText

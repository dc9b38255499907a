import ScoreText.Midi

/-!
Messages decoded. Of any bytes that begin with a status, the decoder looks at as many data bytes as messages of
that kind have and takes seven bits of each, so whatever it makes of them is in range. What an encoder writes it
reads back, with every argument cut down to its bits.
-/

set_option autoImplicit false

namespace ScoreText

variable {R : Type} [Scalar R]

namespace Event

/-- The value of the wheel, if that is what the event is about. -/
def wheelValue? {R : Type} : Event R → Option Nat
  | .pitchWheel low high => some (wheelValue low high)
  | _ => none

/-- The event is one of a channel message, and its numbers fit seven bits. -/
def SevenBit {R : Type} : Event R → Prop
  | .notePressed n | .noteReleased n => n.value ≤ maxData ∧ n.attack ≤ maxData ∧ n.decay ≤ maxData
  | .polyPressure a b | .controller a b | .pitchWheel a b => a ≤ maxData ∧ b ≤ maxData
  | .instrument a | .channelPressure a => a ≤ maxData
  | _ => False

end Event

namespace Midi

/-! ### Data bytes -/

/-- A note of which nothing is known but its pitch and its velocities. -/
def bareNote (value attack decay : Nat) : Note R :=
  { value := value, length := ((0 : Nat) : R), attack := attack, decay := decay }

theorem withVelocities_ofValue {value attack decay : Nat} (hvalue : value < 128) (hattack : attack < 128)
    (hdecay : decay < 128) :
    (Note.ofValue value).withVelocities attack decay = (bareNote value attack decay : Note R) := by
  have hmin : ∀ {n : Nat}, n < 128 → min n maxData = n := fun h => Nat.min_eq_left (Nat.le_of_lt_succ h)
  rw [Note.withVelocities, Note.ofValue, hmin hvalue, hmin hattack, hmin hdecay]
  rfl

namespace Status

/-- How many data bytes messages of a kind have. -/
def dataCount : Status → Nat
  | .program | .channelPressure => 1
  | _ => 2

theorem dataCount_le_two (status : Status) : status.dataCount ≤ 2 := by cases status <;> decide

/-- The event of a message of a kind, from two data bytes or from the first of them. -/
def event (status : Status) (a b : Nat) : Event R :=
  match status with
  | .noteOff => .noteReleased (bareNote a 0 b)
  | .noteOn => if b = 0 then .noteReleased (bareNote a 0 0) else .notePressed (bareNote a b 0)
  | .polyPressure => .polyPressure a b
  | .controller => .controller a b
  | .program => .instrument a
  | .channelPressure => .channelPressure a
  | .pitchWheel => .pitchWheel a b

theorem sevenBit_event (status : Status) {a b : Nat} (ha : a < 128) (hb : b < 128) :
    (status.event a b : Event R).SevenBit := by
  have hle : ∀ {n : Nat}, n < 128 → n ≤ maxData := Nat.le_of_lt_succ
  cases status with
  | noteOff => exact ⟨hle ha, Nat.zero_le _, hle hb⟩
  | noteOn =>
    rw [event]
    split
    · exact ⟨hle ha, Nat.zero_le _, Nat.zero_le _⟩
    · exact ⟨hle ha, hle hb, Nat.zero_le _⟩
  | polyPressure | controller | pitchWheel => exact ⟨hle ha, hle hb⟩
  | program | channelPressure => exact hle ha

theorem ofNumber?_eq_some_iff {n : Nat} {status : Status} : ofNumber? n = some status ↔ status.number = n := by
  constructor
  · intro h
    exact beq_iff_eq.mp (List.find?_some (p := fun s : Status => s.number == n) h)
  · rintro rfl
    exact ofNumber?_number status

theorem number_bounds (status : Status) : 8 ≤ status.number ∧ status.number < 15 := by
  cases status <;> decide

theorem exists_number {n : Nat} (hlow : 8 ≤ n) (hhigh : n < 15) : ∃ status : Status, status.number = n := by
  have hall : ∀ n < 15, 8 ≤ n → ∃ status ∈ all, status.number = n := by decide
  obtain ⟨status, -, hnumber⟩ := hall n hhigh hlow
  exact ⟨status, hnumber⟩

end Status

/-- Seven bits of a data byte, and nothing where there is none. -/
def bits (data : List UInt8) (i : Nat) : Nat := ((data[i]?).map fun b => b.toNat % 128).getD 0

theorem bits_lt (data : List UInt8) (i : Nat) : bits data i < 128 := by
  rw [bits]
  cases data[i]? with
  | none => decide
  | some b => exact Nat.mod_lt _ (by decide)

/-- An event comes of data exactly when there is enough of it. -/
theorem event?_eq (status : Status) (data : List UInt8) :
    (event? status data : Option (Event R)) =
      if status.dataCount ≤ data.length then some (status.event (bits data 0) (bits data 1)) else none := by
  have hlt : ∀ b : UInt8, b.toNat % 128 < 128 := fun b => Nat.mod_lt _ (by decide)
  have hzero : 0 < 128 := by decide
  match data with
  | [] => cases status <;> rfl
  | [a] => cases status <;> rfl
  | a :: b :: rest =>
    have henough : status.dataCount ≤ (a :: b :: rest).length := by
      cases status <;> simp [Status.dataCount]
    rw [if_pos henough]
    cases status with
    | noteOff =>
      exact congrArg (fun n : Note R => some (Event.noteReleased n))
        (withVelocities_ofValue (hlt a) hzero (hlt b))
    | noteOn =>
      change (if 0 < b.toNat % 128 then _ else _) = some (if b.toNat % 128 = 0 then _ else _)
      rw [withVelocities_ofValue (hlt a) hzero hzero, withVelocities_ofValue (hlt a) (hlt b) hzero]
      split <;> split
      · omega
      · rfl
      · rfl
      · omega
    | polyPressure | controller | program | channelPressure | pitchWheel => rfl

/-! ### Messages -/

theorem ne_systemExclusive {first : UInt8} {status : Status} (h : status.number = first.toNat / 16) :
    first ≠ systemExclusive := by
  rintro rfl
  exact absurd (h ▸ status.number_bounds).2 (by decide)

/-- What is decoded of bytes that begin with a status is the event of its kind, on its channel. -/
theorem decode?_status {first : UInt8} {status : Status} (h : status.number = first.toNat / 16) (data : List UInt8) :
    (decode? (first :: data) : Option (Nat × Event R)) =
      if status.dataCount ≤ data.length then
        some (first.toNat % 16, status.event (bits data 0) (bits data 1))
      else none := by
  rw [decode?, if_neg (ne_systemExclusive h), Status.ofNumber?_eq_some_iff.mpr h]
  change (event? status data).bind _ = _
  rw [event?_eq]
  split <;> rfl

/-- A status, and after it as many bytes as messages of its kind have. -/
def Complete : List UInt8 → Prop
  | [] => False
  | first :: data =>
    0x80 ≤ first ∧ first ≤ 0xEF ∧ (if 0xC0 ≤ first ∧ first ≤ 0xDF then 1 else 2) ≤ data.length

theorem complete_cons_iff (first : UInt8) (data : List UInt8) :
    Complete (first :: data) ↔
      ∃ status : Status, status.number = first.toNat / 16 ∧ status.dataCount ≤ data.length := by
  have hcount : ∀ status : Status, status.number = first.toNat / 16 →
      status.dataCount = if 0xC0 ≤ first ∧ first ≤ 0xDF then 1 else 2 := by
    intro status h
    have hone : status.dataCount = if 12 ≤ status.number ∧ status.number ≤ 13 then 1 else 2 := by
      cases status <;> rfl
    rw [hone, h]
    simp only [UInt8.le_iff_toNat_le, UInt8.reduceToNat]
    split <;> split <;> omega
  simp only [Complete, UInt8.le_iff_toNat_le, UInt8.reduceToNat] at hcount ⊢
  constructor
  · rintro ⟨hlow, hhigh, henough⟩
    obtain ⟨status, hnumber⟩ := Status.exists_number (n := first.toNat / 16) (by omega) (by omega)
    exact ⟨status, hnumber, hcount status hnumber ▸ henough⟩
  · rintro ⟨status, hnumber, henough⟩
    have hbounds := status.number_bounds
    exact ⟨by omega, by omega, hcount status hnumber ▸ henough⟩

/-- What is decoded of any bytes. -/
theorem decode?_cases (bytes : List UInt8) :
    (bytes.head? = some systemExclusive ∧
        (decode? bytes : Option (Nat × Event R)) = some (0, .systemExclusive bytes)) ∨
      (∃ (first : UInt8) (data : List UInt8) (status : Status), bytes = first :: data ∧
        status.number = first.toNat / 16 ∧ status.dataCount ≤ data.length) ∨
      (bytes.head? ≠ some systemExclusive ∧ ¬ Complete bytes ∧
        (decode? bytes : Option (Nat × Event R)) = none) := by
  cases bytes with
  | nil => exact .inr (.inr ⟨by simp, not_false, rfl⟩)
  | cons first data =>
    by_cases hsystem : first = systemExclusive
    · exact .inl ⟨by rw [hsystem]; rfl, by rw [decode?, if_pos hsystem]⟩
    · by_cases hcomplete : Complete (first :: data)
      · obtain ⟨status, hnumber, henough⟩ := (complete_cons_iff first data).mp hcomplete
        exact .inr (.inl ⟨first, data, status, rfl, hnumber, henough⟩)
      · refine .inr (.inr ⟨by simpa using hsystem, hcomplete, ?_⟩)
        cases hstatus : Status.ofNumber? (first.toNat / 16) with
        | none =>
          rw [decode?, if_neg hsystem, hstatus]
          rfl
        | some status =>
          have hnumber := Status.ofNumber?_eq_some_iff.mp hstatus
          rw [decode?_status hnumber]
          exact if_neg fun henough => hcomplete ((complete_cons_iff first data).mpr ⟨status, hnumber, henough⟩)

/-- Bytes past those that a message has do not count. -/
theorem event_bits_append (status : Status) {data : List UInt8} (h : status.dataCount ≤ data.length)
    (extra : List UInt8) :
    (status.event (bits (data ++ extra) 0) (bits (data ++ extra) 1) : Event R) =
      status.event (bits data 0) (bits data 1) := by
  match data with
  | [] => cases status <;> simp [Status.dataCount] at h
  | [a] => cases status <;> first | rfl | simp [Status.dataCount] at h
  | a :: b :: rest => rfl

/-! ### Messages encoded -/

theorem toNat_byte (status : Status) (channel : Nat) :
    (status.byte channel).toNat = status.number * 16 + channel % 16 := by
  have hbounds := status.number_bounds
  simp only [Status.byte, Nat.toUInt8_eq, UInt8.toNat_ofNat']
  omega

theorem toNat_dataByte (n : Nat) : (dataByte n).toNat = n % 128 := by
  simp only [dataByte, Nat.toUInt8_eq, UInt8.toNat_ofNat']
  omega

/-- A channel message to encode, without its channel. -/
inductive Message where
  | noteOff (note velocity : Nat)
  | noteOn (note velocity : Nat)
  | polyPressure (key pressure : Nat)
  | controller (number value : Nat)
  | program (number : Nat)
  | channelPressure (pressure : Nat)
  | pitchWheel (value : Nat)
  deriving DecidableEq, Repr

namespace Message

def encode (channel : Nat) : Message → List UInt8
  | .noteOff note velocity => Midi.noteOff channel note velocity
  | .noteOn note velocity => Midi.noteOn channel note velocity
  | .polyPressure key pressure => Midi.polyPressure channel key pressure
  | .controller number value => Midi.controller channel number value
  | .program number => Midi.program channel number
  | .channelPressure pressure => Midi.channelPressure channel pressure
  | .pitchWheel value => Midi.pitchWheel channel value

/-- What a message says, its arguments cut down to seven bits and the wheel to fourteen. -/
def event : Message → Event R
  | .noteOff note velocity => .noteReleased (bareNote (note % 128) 0 (velocity % 128))
  | .noteOn note velocity =>
    if velocity % 128 = 0 then .noteReleased (bareNote (note % 128) 0 0)
    else .notePressed (bareNote (note % 128) (velocity % 128) 0)
  | .polyPressure key pressure => .polyPressure (key % 128) (pressure % 128)
  | .controller number value => .controller (number % 128) (value % 128)
  | .program number => .instrument (number % 128)
  | .channelPressure pressure => .channelPressure (pressure % 128)
  | .pitchWheel value => .pitchWheel (min value maxWheel % 128) (min value maxWheel / 128)

/-- Encoded messages are a status on the channel and their arguments' bits. -/
theorem decode?_bytes (status : Status) (channel : Nat) {data : List UInt8} (h : status.dataCount ≤ data.length) :
    (decode? (status.byte channel :: data) : Option (Nat × Event R)) =
      some (channel % 16, status.event (bits data 0) (bits data 1)) := by
  have hbyte := toNat_byte status channel
  have hnumber : status.number = (status.byte channel).toNat / 16 := by omega
  have hchannel : (status.byte channel).toNat % 16 = channel % 16 := by omega
  rw [decode?_status hnumber, if_pos h, hchannel]

theorem bits_dataByte (n : Nat) (data : List UInt8) : bits (dataByte n :: data) 0 = n % 128 :=
  (congrArg (· % 128) (toNat_dataByte n)).trans (Nat.mod_mod n 128)

theorem bits_dataByte_dataByte (a b : Nat) : bits [dataByte a, dataByte b] 1 = b % 128 := bits_dataByte b []

theorem decode?_encode (message : Message) (channel : Nat) :
    (decode? (message.encode channel) : Option (Nat × Event R)) = some (channel % 16, message.event) := by
  cases message with
  | noteOff a b | noteOn a b | polyPressure a b | controller a b =>
    exact (decode?_bytes _ channel (Status.dataCount_le_two _)).trans
      (by rw [bits_dataByte, bits_dataByte_dataByte]; rfl)
  | program a =>
    have henough : Status.program.dataCount ≤ [dataByte a].length := Nat.le_refl 1
    exact (decode?_bytes _ channel henough).trans (by rw [bits_dataByte]; rfl)
  | channelPressure a =>
    have henough : Status.channelPressure.dataCount ≤ [dataByte a].length := Nat.le_refl 1
    exact (decode?_bytes _ channel henough).trans (by rw [bits_dataByte]; rfl)
  | pitchWheel value =>
    have hhigh : min value maxWheel / 128 % 128 = min value maxWheel / 128 :=
      Nat.mod_eq_of_lt (by have : min value maxWheel ≤ 16383 := Nat.min_le_right _ _; omega)
    exact (decode?_bytes _ channel (Status.dataCount_le_two _)).trans
      (by rw [bits_dataByte, bits_dataByte_dataByte, hhigh]; rfl)

theorem wheelValue?_event (value : Nat) :
    (Message.event (.pitchWheel value) : Event R).wheelValue? = some (min value maxWheel) := by
  simp only [event, Event.wheelValue?, Event.wheelValue, Option.some.injEq]
  omega

end Message

/-- Bytes are decoded exactly when they are a system exclusive message or begin with a complete channel message.
Then the channel is one of sixteen, a channel message carries numbers of seven bits only, and what comes after it
does not count. Of a message encoded, the channel's four bits and the seven bits of each argument are read back. -/
theorem messages_read_back :
    (∀ bytes : List UInt8, (decode? bytes : Option (Nat × Event R)).isSome ↔
      bytes.head? = some systemExclusive ∨ Complete bytes) ∧
    (∀ (bytes : List UInt8) (channel : Nat) (event : Event R), decode? bytes = some (channel, event) →
      channel ≤ 15 ∧
      (bytes.head? = some systemExclusive ∧ channel = 0 ∧ event = .systemExclusive bytes ∨
        bytes.head? ≠ some systemExclusive ∧ event.SevenBit ∧
          ∀ extra, decode? (bytes ++ extra) = some (channel, event))) ∧
    (∀ (message : Message) (channel : Nat),
      (decode? (message.encode channel) : Option (Nat × Event R)) = some (channel % 16, message.event)) ∧
    ∀ channel value : Nat, ∃ event : Event R,
      decode? (pitchWheel channel value) = some (channel % 16, event) ∧
      event.wheelValue? = some (min value maxWheel) := by
  refine ⟨fun bytes => ?_, fun bytes channel event h => ?_, Message.decode?_encode, fun channel value =>
    ⟨_, Message.decode?_encode (.pitchWheel value) channel, Message.wheelValue?_event value⟩⟩
  · rcases decode?_cases (R := R) bytes with
      ⟨hsystem, heq⟩ | ⟨first, data, status, rfl, hnumber, henough⟩ | ⟨hother, hcut, heq⟩
    · rw [heq]
      exact iff_of_true rfl (.inl hsystem)
    · rw [decode?_status hnumber, if_pos henough]
      exact iff_of_true rfl (.inr ((complete_cons_iff first data).mpr ⟨status, hnumber, henough⟩))
    · rw [heq]
      exact iff_of_false Bool.false_ne_true (not_or.mpr ⟨hother, hcut⟩)
  · rcases decode?_cases (R := R) bytes with
      ⟨hsystem, heq⟩ | ⟨first, data, status, rfl, hnumber, henough⟩ | ⟨-, -, heq⟩
    · obtain ⟨rfl, rfl⟩ := Prod.mk.inj (Option.some.inj (heq.symm.trans h))
      exact ⟨Nat.zero_le _, .inl ⟨hsystem, rfl, rfl⟩⟩
    · have henough' : ∀ extra, status.dataCount ≤ (data ++ extra).length := fun extra =>
        Nat.le_trans henough (by rw [List.length_append]; exact Nat.le_add_right _ _)
      rw [decode?_status hnumber, if_pos henough] at h
      obtain ⟨rfl, rfl⟩ := Prod.mk.inj (Option.some.inj h)
      refine ⟨Nat.le_of_lt_succ (Nat.mod_lt _ (by decide)), .inr ⟨?_, ?_, fun extra => ?_⟩⟩
      · simpa using ne_systemExclusive hnumber
      · exact status.sevenBit_event (bits_lt data 0) (bits_lt data 1)
      · rw [List.cons_append, decode?_status hnumber, if_pos (henough' extra),
          event_bits_append status henough]
    · exact absurd (heq.symm.trans h) nofun

/-- A note-on without velocity, whatever comes after it. -/
theorem silent_noteOn_read_back :
    (decode? [0x93, 60, 0] : Option (Nat × Event Rat)) = some (3, .noteReleased (bareNote 60 0 0)) ∧
    ∀ extra, (decode? ([0x93, 60, 0] ++ extra) : Option (Nat × Event Rat)) =
      some (3, .noteReleased (bareNote 60 0 0)) := by
  have hdecoded : (decode? [0x93, 60, 0] : Option (Nat × Event Rat)) =
      some (3, .noteReleased (bareNote 60 0 0)) := rfl
  refine ⟨hdecoded, ?_⟩
  rcases (messages_read_back.2.1 _ _ _ hdecoded).2 with ⟨hsystem, -⟩ | ⟨-, -, hextra⟩
  · exact absurd hsystem (by decide)
  · exact hextra

end Midi

end ScoreText

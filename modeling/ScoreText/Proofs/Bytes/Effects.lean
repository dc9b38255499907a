import ScoreText.Proofs.Bytes.Scanner

/-!
Work that fires events and changes what is remembered as it goes. When it comes to a halt, what it has done
by then stays done. So that a failure leaves no trace, all that can fail has to come before the first event
and the first change.
-/

set_option autoImplicit false

namespace ScoreText

variable {R : Type}

/-- What has come of reading so far. -/
structure Trace (R : Type) where
  events : List (Event R)
  memory : Memory

abbrev Effect (R α : Type) := ExceptT Halt (StateM (Trace R)) α

namespace Effect

variable {α β : Type}

def run (x : Effect R α) (before : Trace R) : Except Halt α × Trace R := StateT.run (ExceptT.run x) before

/-- What is computed without leaving a trace. -/
def of (x : Except Halt α) : Effect R α := ExceptT.mk (pure x)

def check (x : Except Error α) : Effect R α := of (Halt.lift x)

def remembered : Effect R Memory := ExceptT.mk fun t => (.ok t.memory, t)

def remember (f : Memory → Memory) : Effect R Unit :=
  ExceptT.mk fun t => (.ok (), { t with memory := f t.memory })

def fire (e : Event R) : Effect R Unit :=
  ExceptT.mk fun t => (.ok (), { t with events := t.events ++ [e] })

def fireAll : List (Event R) → Effect R Unit
  | [] => pure ()
  | e :: rest => do
    fire e
    fireAll rest

theorem run_bind (x : Effect R α) (f : α → Effect R β) (t : Trace R) :
    (x >>= f).run t =
      match x.run t with
      | (.ok a, after) => (f a).run after
      | (.error halt, after) => (.error halt, after) := by
  change (match StateT.run (ExceptT.run x) t with
    | (result, after) => StateT.run (ExceptT.bindCont f result) after) = _
  rw [run]
  rcases StateT.run (ExceptT.run x) t with ⟨_ | _, _⟩ <;> rfl

theorem run_remembered_bind (f : Memory → Effect R β) (t : Trace R) :
    (remembered >>= f).run t = (f t.memory).run t := rfl

theorem run_fire_bind (e : Event R) (f : Unit → Effect R β) (t : Trace R) :
    (fire e >>= f).run t = (f ()).run { t with events := t.events ++ [e] } := rfl

theorem run_fireAll (events : List (Event R)) (t : Trace R) :
    (fireAll events).run t = (.ok (), { t with events := t.events ++ events }) := by
  induction events generalizing t with
  | nil =>
    rw [List.append_nil]
    rfl
  | cons e rest ih =>
    rw [fireAll, run_fire_bind, ih, List.append_assoc]
    rfl

/-! ### Work that halts without a trace -/

/-- Work that halts has left everything as it was. -/
def Clean (x : Effect R α) : Prop := ∀ before halt, (x.run before).1 = .error halt → (x.run before).2 = before

/-- Work that changes nothing. -/
def Still (x : Effect R α) : Prop := ∀ before, (x.run before).2 = before

/-- Work that does not halt. -/
def Sure (x : Effect R α) : Prop := ∀ before, ∃ a, (x.run before).1 = .ok a

theorem Still.clean {x : Effect R α} (h : Still x) : Clean x := fun before _ _ => h before

theorem Sure.clean {x : Effect R α} (h : Sure x) : Clean x := by
  intro before halt hhalt
  obtain ⟨a, ha⟩ := h before
  rw [ha] at hhalt
  cases hhalt

theorem still_of (x : Except Halt α) : Still (of x : Effect R α) := fun _ => rfl

theorem still_remembered : Still (remembered : Effect R Memory) := fun _ => rfl

theorem sure_pure (a : α) : Sure (pure a : Effect R α) := fun _ => ⟨a, rfl⟩

theorem sure_fire (e : Event R) : Sure (fire e) := fun _ => ⟨(), rfl⟩

theorem sure_fireAll (events : List (Event R)) : Sure (fireAll events) :=
  fun before => ⟨(), by rw [run_fireAll]⟩

theorem sure_remember (g : Memory → Memory) : Sure (remember g : Effect R Unit) := fun _ => ⟨(), rfl⟩

theorem Sure.bind {x : Effect R α} {f : α → Effect R β} (hx : Sure x) (hf : ∀ a, Sure (f a)) : Sure (x >>= f) := by
  intro before
  obtain ⟨a, ha⟩ := hx before
  obtain ⟨b, hb⟩ := hf a (x.run before).2
  refine ⟨b, ?_⟩
  rw [run_bind]
  rcases hrun : x.run before with ⟨result, after⟩
  rw [hrun] at ha hb
  cases ha
  exact hb

/-- What is done before anything has changed may fail. -/
theorem Still.bind {x : Effect R α} {f : α → Effect R β} (hx : Still x) (hf : ∀ a, Clean (f a)) :
    Clean (x >>= f) := by
  intro t halt hhalt
  have hstill := hx t
  rw [run_bind] at hhalt ⊢
  rcases hrun : x.run t with ⟨_ | a, after⟩
  · rw [hrun] at hstill
    exact hstill
  · rw [hrun] at hhalt hstill
    obtain rfl : after = t := hstill
    exact hf a after halt hhalt

/-- After what may have changed something, nothing may fail. -/
theorem Clean.bind {x : Effect R α} {f : α → Effect R β} (hx : Clean x) (hf : ∀ a, Sure (f a)) :
    Clean (x >>= f) := by
  intro before halt hhalt
  have hclean := hx before
  rw [run_bind] at hhalt ⊢
  rcases hrun : x.run before with ⟨_ | a, after⟩
  · rw [hrun] at hclean
    exact hclean _ rfl
  · rw [hrun] at hhalt
    obtain ⟨b, hb⟩ := hf a after
    rw [hb] at hhalt
    cases hhalt

theorem clean_fire_pure (e : Event R) (a : α) : Clean (fire e >>= fun _ => (pure a : Effect R α)) :=
  ((sure_fire e).bind fun _ => sure_pure a).clean

/-! ### Work that does what was computed -/

/-- What firing computed events comes to. -/
def answer (t : Trace R) : Except Error (List (Event R)) → Except Halt Unit × Trace R
  | .ok events => (.ok (), { t with events := t.events ++ events })
  | .error e => (.error (.failed e), t)

theorem check_bind {x : Except Error α} {f : α → Effect R Unit} {g : α → Except Error (List (Event R))}
    {t : Trace R} (h : ∀ a, (f a).run t = answer t (g a)) : (check x >>= f).run t = answer t (x >>= g) := by
  cases x with
  | error e => rfl
  | ok a => exact h a

end Effect

namespace Control

open Effect

def applyPitchWheel (params : Text) : Effect R Unit :=
  match Params.split params with
  | [value] => do
    let value ← check (Params.number value)
    let value ← check (checkRange .pitchWheel value 0 maxWheel)
    fire (.pitchWheel (value % 128) (value / 128))
  | [low, high] => do
    let low ← check (Params.number low)
    let low ← check (checkRange .pitchWheelLow low 0 maxData)
    let high ← check (Params.number high)
    let high ← check (checkRange .pitchWheelHigh high 0 maxData)
    fire (.pitchWheel low high)
  | _ => check (.error (.malformed .pitchWheelParameters params))

def applyController (params : Text) : Effect R Unit :=
  match Params.split params with
  | [number, value] => do
    let memory ← remembered
    let number ← check (Params.numberOrName memory.symbols .controller number)
    let value ← check (Params.numberOrName memory.symbols .controllerValue value)
    if (maxData : Int) < number then do
      let coarse ← check (checkRange .controller (number / 128) 0 maxData)
      let value ← check (checkRange .controllerValue value 0 maxWheel)
      fire (.controller (number % 128).toNat (value % 128))
      fire (.controller coarse (value / 128))
    else do
      let number ← check (checkRange .controller number 0 maxData)
      let value ← check (checkRange .controllerValue value 0 maxData)
      fire (.controller number value)
  | _ => check (.error (.malformed (.parameterCount "controller" 2) params))

def applyChannelPressure (params : Text) : Effect R Unit :=
  match Params.split params with
  | [pressure] => do
    let pressure ← check (Params.number pressure)
    let pressure ← check (checkRange .pressure pressure 0 maxData)
    fire (.channelPressure pressure)
  | _ => check (.error (.malformed (.parameterCount "channel pressure" 1) params))

def applyPolyPressure (params : Text) : Effect R Unit :=
  match Params.split params with
  | [key, pressure] => do
    let key ← check (Params.number key)
    let key ← check (checkRange .key key 0 maxData)
    let pressure ← check (Params.number pressure)
    let pressure ← check (checkRange .pressure pressure 0 maxData)
    fire (.polyPressure key pressure)
  | _ => check (.error (.malformed (.parameterCount "poly pressure" 2) params))

def applySystemExclusive (params : Text) : Effect R Unit := do
  let bytes ← check ((Params.split params).mapM byte)
  if bytes.isEmpty then check (.error (.malformed .sysexNeedsByte params))
  else fire (.systemExclusive bytes)

/-- Carries out a call. -/
def apply (control : Control) (params : Text) : Effect R Unit :=
  match control with
  | .pitchWheel => applyPitchWheel params
  | .controller => applyController params
  | .channelPressure => applyChannelPressure params
  | .polyPressure => applyPolyPressure params
  | .systemExclusive => applySystemExclusive params

/-- Carrying out a call fires the events that it stands for. -/
theorem run_apply (control : Control) (params : Text) (t : Trace R) :
    (control.apply params).run t = answer t (control.events t.memory.symbols params) := by
  cases control with
  | pitchWheel =>
    simp only [apply, applyPitchWheel, events, pitchWheelEvents]
    rcases Params.split params with _ | ⟨a, _ | ⟨b, _ | _⟩⟩
    · rfl
    · exact check_bind fun n => check_bind fun value => rfl
    · exact check_bind fun n => check_bind fun low => check_bind fun m => check_bind fun high => rfl
    · rfl
  | controller =>
    simp only [apply, applyController, events, controllerEvents]
    rcases Params.split params with _ | ⟨a, _ | ⟨b, _ | _⟩⟩
    · rfl
    · rfl
    · rw [run_remembered_bind]
      refine check_bind fun number => check_bind fun value => ?_
      split
      · refine check_bind fun coarse => check_bind fun value => ?_
        rw [run_fire_bind]
        exact congrArg (fun events => (Except.ok (), { t with events := events })) (List.append_assoc _ _ _)
      · exact check_bind fun number => check_bind fun value => rfl
    · rfl
  | channelPressure =>
    simp only [apply, applyChannelPressure, events, channelPressureEvents]
    rcases Params.split params with _ | ⟨a, _ | _⟩
    · rfl
    · exact check_bind fun n => check_bind fun pressure => rfl
    · rfl
  | polyPressure =>
    simp only [apply, applyPolyPressure, events, polyPressureEvents]
    rcases Params.split params with _ | ⟨a, _ | ⟨b, _ | _⟩⟩
    · rfl
    · rfl
    · exact check_bind fun n => check_bind fun key => check_bind fun m => check_bind fun pressure => rfl
    · rfl
  | systemExclusive =>
    simp only [apply, applySystemExclusive, events, systemExclusiveEvents]
    refine check_bind fun bytes => ?_
    split <;> rfl

/-- A value that is looked at for its range before anything is fired. -/
theorem clean_checked {x : Except Error Int} {quantity : Quantity} {low high : Nat} {f : Nat → Effect R Unit}
    (hf : ∀ n, Clean (f n)) : Clean (check x >>= fun value => check (checkRange quantity value low high) >>= f) :=
  (still_of _).bind fun _ => (still_of _).bind hf

/-- A call that fails has fired nothing. -/
theorem clean_apply (control : Control) (params : Text) : Clean (control.apply params : Effect R Unit) := by
  cases control with
  | pitchWheel =>
    simp only [apply, applyPitchWheel]
    split
    · exact clean_checked fun value => (sure_fire _).clean
    · exact clean_checked fun low => clean_checked fun high => (sure_fire _).clean
    · exact (still_of _).clean
  | controller =>
    simp only [apply, applyController]
    split
    · refine still_remembered.bind fun memory => (still_of _).bind fun number => (still_of _).bind fun value => ?_
      split
      · refine (still_of _).bind fun coarse => (still_of _).bind fun value => ?_
        exact ((sure_fire _).bind fun _ => sure_fire _).clean
      · exact (still_of _).bind fun number => (still_of _).bind fun value => (sure_fire _).clean
    · exact (still_of _).clean
  | channelPressure =>
    simp only [apply, applyChannelPressure]
    split
    · exact clean_checked fun pressure => (sure_fire _).clean
    · exact (still_of _).clean
  | polyPressure =>
    simp only [apply, applyPolyPressure]
    split
    · exact clean_checked fun key => clean_checked fun pressure => (sure_fire _).clean
    · exact (still_of _).clean
  | systemExclusive =>
    refine (still_of _).bind fun bytes => ?_
    split
    · exact (still_of _).clean
    · exact (sure_fire _).clean

end Control

end ScoreText

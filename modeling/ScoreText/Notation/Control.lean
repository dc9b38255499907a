import ScoreText.Event
import ScoreText.Notation.Dialect

/-!
Calls of control functions: the events that parameters in parentheses stand for.
-/

set_option autoImplicit false

namespace ScoreText

namespace Params

/-- Parameters between commas, without the white space around them; blank text holds none. -/
def split (params : Text) : List Text :=
  if (Text.trim params).isEmpty then [] else (Text.fields ',' params).map Text.trim

/-- The name in brackets, or the whole text as a name. -/
def bareName (param : Text) : Text :=
  match (Text.after? ['['] param).bind (Text.before? [']']) with
  | some inner => inner
  | none => param

def number? (param : Text) : Option Int := Numeral.int? 64 param

/-- A number. -/
def number (param : Text) : Except Error Int :=
  match number? param with
  | some n => .ok n
  | none => .error (.invalid .parameter param)

/-- A number or the name of one. -/
def numberOrName (symbols : Symbols) (kind : NameKind) (param : Text) : Except Error Int :=
  match number? param with
  | some n => .ok n
  | none => symbols.require kind (Text.upper (bareName param))

end Params

namespace Control

variable {R : Type}

def pitchWheelEvents (params : Text) : Except Error (List (Event R)) :=
  match Params.split params with
  | [value] => do
    let value ← Params.number value
    let value ← checkRange .pitchWheel value 0 maxWheel
    return [.pitchWheel (value % 128) (value / 128)]
  | [low, high] => do
    let low ← Params.number low
    let low ← checkRange .pitchWheelLow low 0 maxData
    let high ← Params.number high
    let high ← checkRange .pitchWheelHigh high 0 maxData
    return [.pitchWheel low high]
  | _ => .error (.malformed .pitchWheelParameters params)

/-- A number above 127 names a coarse and a fine controller, which share out fourteen bits: the fine
one is set first. -/
def controllerEvents (symbols : Symbols) (params : Text) : Except Error (List (Event R)) :=
  match Params.split params with
  | [number, value] => do
    let number ← Params.numberOrName symbols .controller number
    let value ← Params.numberOrName symbols .controllerValue value
    if (maxData : Int) < number then
      let coarse ← checkRange .controller (number / 128) 0 maxData
      let value ← checkRange .controllerValue value 0 maxWheel
      return [.controller (number % 128).toNat (value % 128), .controller coarse (value / 128)]
    else
      let number ← checkRange .controller number 0 maxData
      let value ← checkRange .controllerValue value 0 maxData
      return [.controller number value]
  | _ => .error (.malformed (.parameterCount "controller" 2) params)

def channelPressureEvents (params : Text) : Except Error (List (Event R)) :=
  match Params.split params with
  | [pressure] => do
    let pressure ← Params.number pressure
    let pressure ← checkRange .pressure pressure 0 maxData
    return [.channelPressure pressure]
  | _ => .error (.malformed (.parameterCount "channel pressure" 1) params)

def polyPressureEvents (params : Text) : Except Error (List (Event R)) :=
  match Params.split params with
  | [key, pressure] => do
    let key ← Params.number key
    let key ← checkRange .key key 0 maxData
    let pressure ← Params.number pressure
    let pressure ← checkRange .pressure pressure 0 maxData
    return [.polyPressure key pressure]
  | _ => .error (.malformed (.parameterCount "poly pressure" 2) params)

def byte (text : Text) : Except Error UInt8 :=
  match Numeral.natOrHex? (Numeral.largest 8) text with
  | some n => .ok n.toUInt8
  | none => .error (.invalid .sysexByte text)

def systemExclusiveEvents (params : Text) : Except Error (List (Event R)) := do
  let bytes ← (Params.split params).mapM byte
  if bytes.isEmpty then .error (.malformed .sysexNeedsByte params)
  else return [.systemExclusive bytes]

/-- What a call announces. -/
def events (control : Control) (symbols : Symbols) (params : Text) :
    Except Error (List (Event R)) :=
  match control with
  | .pitchWheel => pitchWheelEvents params
  | .controller => controllerEvents symbols params
  | .channelPressure => channelPressureEvents params
  | .polyPressure => polyPressureEvents params
  | .systemExclusive => systemExclusiveEvents params

end Control

end ScoreText

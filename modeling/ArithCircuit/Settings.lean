import ArithCircuit.Text.Blank

/-!
Which simplifications are applied while a circuit is recorded and lowered, and the named presets.
-/

namespace ArithCircuit

/-- Which equalities are absorbed by the classes of variables instead of producing gates. -/
inductive Unification where
  /-- None. -/
  | off
  /-- `x = y`, and `x = c` up to sign. -/
  | aliases
  /-- Any equation over at most two classes. -/
  | affine
deriving DecidableEq

/-- The choice of simplifications. -/
structure Settings where
  /-- Products by constants and constraints over constants produce no gate. -/
  foldConstants : Bool
  /-- Operands are brought to normal shape. -/
  normalizeOperands : Bool
  unification : Unification
  /-- Two generic halves share one row. -/
  batchHalves : Bool
deriving DecidableEq

/-- The settings that have a name. -/
inductive Preset where
  /-- Everything, with affine unification. -/
  | aggressive
  /-- Everything, but only aliases are unified. -/
  | compatible
  /-- Nothing: every recorded constraint becomes rows of its own. -/
  | debug
deriving DecidableEq

namespace Preset

def all : List Preset := [aggressive, compatible, debug]

def name : Preset → String
  | aggressive => "aggressive"
  | compatible => "snarky_compatible"
  | debug => "debug"

/-- The preset with a given name; names are compared with their case. -/
def ofName? (text : String) : Option Preset :=
  all.find? fun preset => preset.name == text

def settings : Preset → Settings
  | aggressive => ⟨true, true, .affine, true⟩
  | compatible => ⟨true, true, .aliases, true⟩
  | debug => ⟨false, false, .off, false⟩

end Preset

namespace Settings

/-- The settings used when none are asked for. -/
def standard : Settings := Preset.aggressive.settings

/-- The settings that the environment asks for by the name of a preset, blanks around it aside.
An unknown name asks for nothing. -/
def ofEnvironment (request : Option String) : Settings :=
  match request.bind fun text => Preset.ofName? (Text.trimBlanks text) with
  | some preset => preset.settings
  | none => standard

end Settings

end ArithCircuit

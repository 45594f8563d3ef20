import CoreCommon.ConfigParse
import CoreCommon.MapReserved

/-! The options of a window and the configuration file that sets them. The file goes through
the grammar into a map; every setting is then looked up in turn, and a value of another kind
than the setting's ends the call. -/
namespace CoreCommon.Window
open NumberText Config

/-- `Window::Options`. -/
structure Options where
  x : ℤ
  y : ℤ
  w : ℤ
  h : ℤ
  fps : ℤ
  vsync : Bool
  mouseSensitivity : CFloat
  samples : ℤ
  cfg : Values

/-- `static_cast<int>` of a `long`. -/
def toInt (n : ℤ) : ℤ := n.bmod (2 ^ 32)

/-- What `load` looks up. -/
inductive Setting
  | x | y | w | h | fps | samples | vsync | sensitivity
  deriving DecidableEq

/-- In the order of the lookups. -/
def settings : List Setting := [.x, .y, .w, .h, .fps, .samples, .vsync, .sensitivity]

def Setting.key : Setting → List Char
  | .x => "x".toList
  | .y => "y".toList
  | .w => "w".toList
  | .h => "h".toList
  | .fps => "fps".toList
  | .samples => "samples".toList
  | .vsync => "vsync".toList
  | .sensitivity => "sensitivity".toList

/-- The setting's field after `std::get` of its type; none for `std::bad_variant_access`. -/
def Setting.assign (o : Options) : Setting → Variant → Option Options
  | .x, .long n => some { o with x := toInt n }
  | .y, .long n => some { o with y := toInt n }
  | .w, .long n => some { o with w := toInt n }
  | .h, .long n => some { o with h := toInt n }
  | .fps, .long n => some { o with fps := toInt n }
  | .samples, .long n => some { o with samples := toInt n }
  | .vsync, .bool b => some { o with vsync := b }
  | .sensitivity, .float r => some { o with mouseSensitivity := r }
  | _, _ => none

/-- How `load` ends. -/
inductive Ended
  | returned (found : Bool)
  | badVariantAccess
  deriving DecidableEq

def readSettings (hash : List Char → UInt64) (fuel : ℕ) : List Setting → Options →
    Run (Options × Ended)
  | [], o => .ok (o, .returned true)
  | s :: l, o => do
    match ← o.cfg.lookup hash fuel s.key with
    | some v =>
      match s.assign o v.var with
      | some o => readSettings hash fuel l o
      | none => .ok (o, .badVariantAccess)
    | none => readSettings hash fuel l o

/-- `Options::load`; `file` is what `read_file` returns, or none where it throws. -/
def Options.load (hash : List Char → UInt64) (fuel : ℕ) (o : Options) (file : Option (List Char)) :
    Run (Options × Ended) :=
  match file with
  | none => .ok (o, .returned false)
  | some str => do
    let cfg ← Config.parse hash fuel o.cfg str
    readSettings hash fuel settings { o with cfg }

/-- `Options()`; `undefined` is `SDL_WINDOWPOS_UNDEFINED`. -/
def Options.new (hash : List Char → UInt64) (undefined : ℤ) : Run Options := do
  let cfg ← Map.ofCapacity hash 0
  .ok ⟨undefined, undefined, 1024, 512, 60, true, roundFloat false 1 2, 4, cfg⟩

/-! ### Fields -/

/-- The setting's field. -/
def Setting.field (o : Options) : Setting → Variant
  | .x => .long o.x
  | .y => .long o.y
  | .w => .long o.w
  | .h => .long o.h
  | .fps => .long o.fps
  | .samples => .long o.samples
  | .vsync => .bool o.vsync
  | .sensitivity => .float o.mouseSensitivity

/-- The value of a setting's kind that a value is taken for. -/
def Setting.cast : Setting → Variant → Option Variant
  | .vsync, .bool b => some (.bool b)
  | .vsync, _ => none
  | .sensitivity, .float r => some (.float r)
  | .sensitivity, _ => none
  | _, .long n => some (.long (toInt n))
  | _, _ => none

section fields
variable {o o' : Options} {s : Setting} {v : Variant}

end fields

/-! ### The lookups -/

section reading
variable {hash : List Char → UInt64} {fuel : ℕ} {g : List Char → Option Value}

/-- There is no value for the setting, or one of its kind. -/
def fits (g : List Char → Option Value) (s : Setting) : Bool :=
  (g s.key).all fun v => (s.cast v.var).isSome

/-- What is read for a setting over its old value. -/
def Setting.read (g : List Char → Option Value) (s : Setting) (old : Variant) : Variant :=
  ((g s.key).bind fun v => s.cast v.var).getD old

end reading

/-! ### From the file to the options -/

section loading
variable {hash : List Char → UInt64} {str : List Char} {fuel : ℕ}

/-- The entries that a file leaves in the map. -/
def entries (str : List Char) : List (List Char × Value) :=
  if WellFormed (cStr str) then (readEntries (cStr str)).1 else []

end loading

end CoreCommon.Window

import Caplets.Strings

/-!
# Capabilities, constraints, frames and requests

The data of `caplets.h` with its printers and parsers, and the comparisons of
`utilities.cpp`.

A parser is a method : it starts from the state `self` of the object it is called on and
may leave parts of it in place. `CapabilityStructure::from_string` leaves the type alone
if its field is neither `0` nor `1`. In a frame that object is a local variable whose type
was never set, so `Frame.fromString` takes what the memory of its `i`-th capability holds
as an argument `stale i`.
-/

namespace Caplets

/-- The text that makes a piece of a frame a constraint. -/
def functionMarker : Str := "FUNCTION:".toList

/-- The text that makes the last piece of a token a request. -/
def requestMarker : Str := "request:".toList

/-! ## Capabilities -/

/-- `capability_type`. A variable of this type that was never assigned may hold any
unsigned value. `other n` is the value `n + 3`. -/
inductive CapabilityType
  | deviceCap
  | userCap
  | ownerCap
  | other (n : ℕ)
  deriving DecidableEq, Repr

/-- The number that is printed for a type. -/
def CapabilityType.value : CapabilityType → ℕ
  | deviceCap => 0
  | userCap => 1
  | ownerCap => 2
  | other n => n + 3

/-- The fields of `CapabilityStructure`. `cap_bits` is a `std::bitset<3>`. -/
structure CapabilityStructure where
  resource : Str
  type : CapabilityType
  capBits : BitVec 3
  deriving DecidableEq, Repr

namespace CapabilityStructure

/-- The three fields with `+` between them, the type as a decimal number. -/
def toString (self : CapabilityStructure) : Str :=
  self.resource ++ ['+'] ++ Nat.toDigits 10 self.type.value ++ ['+'] ++
    bitsToString self.capBits

/-- The type a type field sets, `prior` if it sets none. -/
def typeOfField (field : Str) (prior : CapabilityType) : CapabilityType :=
  if strcmpEq field ['0'] then .deviceCap
  else if strcmpEq field ['1'] then .userCap
  else prior

/-- The first three pieces between `+`. Further ones are ignored. -/
def fromString (self : CapabilityStructure) (capString : Str) :
    Except Fault CapabilityStructure := do
  let result := splitString [] capString ['+']
  let resource ← vecAt result 0
  let type ← vecAt result 1
  let bits ← vecAt result 2
  return { self with
    resource := resource
    type := typeOfField type self.type
    capBits := bitsOfInt (atoi bits) }

/-- `CapabilityStructure capstr;` : the type is whatever the memory holds. -/
def uninit (stale : CapabilityType) : CapabilityStructure :=
  ⟨[], stale, 0⟩

end CapabilityStructure

/-! ## Constraints -/

/-- A function with its parameters. -/
structure Constraint where
  function : Str
  parameters : List Str
  deriving DecidableEq, Repr

namespace Constraint

/-- `FUNCTION:`, the function, and `:` in front of each parameter. -/
def toString (self : Constraint) : Str :=
  functionMarker ++ self.function ++ self.parameters.flatMap ([':'] ++ ·)

/-- The parameters are appended to those of the object, the first of all is taken out as
the function. -/
def fromString (self : Constraint) (constString : Str) : Except Fault Constraint := do
  let funcParaSeparatorIndex := findIndex constString [':']
  let rest ← substr constString (funcParaSeparatorIndex + 1).toNat constString.length
  let parameters := splitString self.parameters rest [':']
  let function ← vecAt parameters 0
  return ⟨function, parameters.tail⟩

/-- `Constraint constraint;`. -/
def empty : Constraint := ⟨[], []⟩

end Constraint

/-! ## Frames -/

/-- What one holder passes on, and under which constraints. -/
structure Frame where
  capabilities : List CapabilityStructure
  constraints : List Constraint
  deriving DecidableEq, Repr

namespace Frame

/-- Capabilities with `$` between them, then every constraint with `$` before it. -/
def toString (self : Frame) : Str :=
  ['$'].intercalate (self.capabilities.map CapabilityStructure.toString) ++
    self.constraints.flatMap fun constraint => ['$'] ++ constraint.toString

/-- The loop of `Frame::from_string` from its `i`-th piece on. -/
def addPieces (stale : ℕ → CapabilityType) : ℕ → Frame → List Str → Except Fault Frame
  | _, self, [] => .ok self
  | i, self, piece :: pieces =>
    if findIndex piece functionMarker = -1 then do
      let capstr ← (CapabilityStructure.uninit (stale i)).fromString piece
      addPieces stale (i + 1)
        { self with capabilities := self.capabilities ++ [capstr] } pieces
    else do
      let constraint ← Constraint.empty.fromString piece
      addPieces stale (i + 1)
        { self with constraints := self.constraints ++ [constraint] } pieces

/-- The pieces between `$` are appended to what the frame holds. -/
def fromString (stale : ℕ → CapabilityType) (self : Frame) (str : Str) : Except Fault Frame :=
  addPieces stale 0 self (splitString [] str ['$'])

/-- `new Frame()`. -/
def empty : Frame := ⟨[], []⟩

end Frame

/-! ## Requests -/

/-- A `Request` is a `Frame` in the source. Nothing fills the capabilities and constraints
it inherits, so they are left out. -/
structure Request where
  capability : CapabilityStructure
  handlerName : Str
  value : Str
  deriving DecidableEq, Repr

namespace Request

/-- `request:` and four fields with `:` between them. -/
def toString (self : Request) : Str :=
  requestMarker ++ self.capability.resource ++ [':'] ++ self.handlerName ++
    [':'] ++ self.value ++ [':'] ++ bitsToString self.capability.capBits

/-- The pieces between `:` from the second on. The first one is not looked at. -/
def fromString (self : Request) (request : Str) : Except Fault Request := do
  let stringVec := splitString [] request [':']
  let resource ← vecAt stringVec 1
  let handlerName ← vecAt stringVec 2
  let value ← vecAt stringVec 3
  let bits ← vecAt stringVec 4
  let capability := { self.capability with
    resource := resource
    type := .deviceCap
    capBits := bitsOfInt (atoi bits) }
  return { self with capability, handlerName, value }

/-- `new Request()`. -/
def empty : Request := ⟨⟨[], .deviceCap, 0⟩, [], []⟩

end Request

/-! ## Elements of a body -/

/-- What a `Frame*` of a token body points to. -/
inductive Element
  | frame (f : Frame)
  | request (r : Request)
  deriving DecidableEq, Repr

namespace Element

/-- `to_string()` of the class that the pointer is one to. -/
def toString : Element → Str
  | frame f => f.toString
  | request r => r.toString

@[simp] theorem toString_frame (f : Frame) : (frame f).toString = f.toString := rfl

@[simp] theorem toString_request (r : Request) : (request r).toString = r.toString := rfl

/-- `get_capabilities()`, empty for a request. -/
def getCapabilities : Element → List CapabilityStructure
  | frame f => f.capabilities
  | request _ => []

/-- `get_constraints()`, empty for a request. -/
def getConstraints : Element → List Constraint
  | frame f => f.constraints
  | request _ => []

/-- The cast `(Request*)`. -/
def asRequest : Element → Except Fault Request
  | frame _ => .error .badCast
  | request r => .ok r

/-- The element as a frame of the chain. -/
def frame? : Element → Option Frame
  | frame f => some f
  | request _ => none

@[simp] theorem frame?_eq_some {e : Element} {f : Frame} : e.frame? = some f ↔ e = .frame f := by
  cases e with
  | frame g => simp [frame?]
  | request r => simp [frame?]

end Element

/-! ## Comparisons -/

/-- The loop of `is_path_subset_of_path` over the components of both paths. Past the end
of `full` nothing is compared. -/
def pathLoop : List Str → List Str → Bool
  | [], _ => true
  | _ :: _, [] => true
  | p :: part, f :: full =>
    if strcmpEq ['*'] f then pathLoop part full
    else if !strcmpEq p f then false
    else pathLoop part full

/-- `util::is_path_subset_of_path(part, full)`. -/
def isPathSubsetOfPath (part full : Str) : Bool :=
  pathLoop (splitString [] part ['/']) (splitString [] full ['/'])

/-- `util::is_cap_bits_valid(part, full)` : every bit of `part` is one of `full`. -/
def isCapBitsValid (part full : BitVec 3) : Bool :=
  part &&& full == part

/-- `util::is_cap_subset_of_cap(part, full)`. The resources are not compared here. -/
def isCapSubsetOfCap (part full : CapabilityStructure) : Bool :=
  if part.type ≠ full.type then false else isCapBitsValid part.capBits full.capBits

/-- Both tests that a capability or a request has to pass against one that covers it. -/
def covered (part full : CapabilityStructure) : Bool :=
  isPathSubsetOfPath part.resource full.resource && isCapSubsetOfCap part full

end Caplets

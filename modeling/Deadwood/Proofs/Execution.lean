import Deadwood.Func

/-!
# Running a function

A reference machine for functions in single-assignment form. An environment gives every value an
integer. Control enters a block, goes through its instructions in order, and leaves it with the
first one that sends it elsewhere. The world outside sees the **effects** of a run: calls to callees
that are not const, stores, stops for a debugger, and the results returned.

What a function does not settle is left open in `Machine`, so that a statement about all machines
covers every way to settle it: which callees are const, the inputs, what calls return, which way a
branch goes, and what an unassigned value holds. A call may return something different each time,
since its result may depend on everything that happened before.

Merges read the environment as it was when control entered their block, so the merges of a block
take effect together.

A run ends when the function returns, when control falls off the end of a block, and when it goes to
a block outside the layout. `run` is defined for every number of blocks gone through, so it
describes the runs that end and those that do not.
-/

namespace Deadwood

/-- What the world outside sees of a run. -/
inductive Effect where
  | call (callee : Callee) (args : List Int)
  | store (mem src : Int)
  | breakpoint
  | ret (results : List Int)
deriving DecidableEq, Repr

abbrev History := List Effect

/-- What functions leave open. -/
structure Machine where
  /-- Whether calls to the callee have no effect. -/
  isConst : Callee → Bool
  /-- What a value holds before it is assigned. -/
  unassigned : Int
  input : Int → Int
  /-- What a call without an effect returns. -/
  constResult : History → Callee → List Int → Int
  /-- What any other call returns. -/
  callResult : History → Callee → List Int → Int
  /-- Whether a branch on this number goes to its first target. -/
  takes : Int → Bool

abbrev Env := Value → Int

namespace Env

def read (env : Env) (x : Operand) : Int :=
  match x.value? with
  | some v => env v
  | none => x.literal.toInt

/-- The result of an operation may have no name, and then nothing holds it. -/
def assign (env : Env) (dst : Value) (n : Int) : Env := fun v =>
  if v = dst ∧ dst.IsSome then n else env v

end Env

/-- A run inside a block. -/
structure Frame where
  /-- The block that control came from, if it came from one. -/
  came : Option BlockRef
  /-- What the values held on entering the block. -/
  entry : Env
  env : Env
  history : History

namespace Frame

def assign (f : Frame) (dst : Value) (n : Int) : Frame := { f with env := f.env.assign dst n }

def emit (f : Frame) (e : Effect) : Frame := { f with history := f.history ++ [e] }

/-- The operand that a merge receives. -/
def received? (f : Frame) (incoming : Incoming) : Option Operand :=
  f.came.bind fun p => incoming.lookup p

end Frame

/-- How control leaves a block. -/
inductive Exit where
  | goto (target : BlockRef)
  | leave
deriving DecidableEq, Repr

namespace Machine

/-- Do one operation. It may send control out of the block. -/
def perform (m : Machine) (f : Frame) : Op → Frame × Option Exit
  | .ret results => (f.emit (.ret (results.map f.env.read)), some .leave)
  | .copy dst src => (f.assign dst (f.env.read src), none)
  | .phi dst incoming =>
    (f.assign dst ((f.received? incoming).elim m.unassigned f.entry.read), none)
  | .call dst callee args =>
    let xs := args.map f.env.read
    if m.isConst callee then (f.assign dst (m.constResult f.history callee xs), none)
    else ((f.assign dst (m.callResult f.history callee xs)).emit (.call callee xs), none)
  | .param dst index => (f.assign dst (m.input index), none)
  | .branch cond yes no => (f, some (.goto (if m.takes (f.env.read cond) then yes else no)))
  | .jump target => (f, some (.goto target))
  | .store mem src => (f.emit (.store (f.env.read mem) (f.env.read src)), none)
  | .breakpoint => (f.emit .breakpoint, none)
  | .unknown _ => (f, none)

/-- Go through instructions until one sends control away. -/
def performAll (m : Machine) (f : Frame) : List Instr → Frame × Option Exit
  | [] => (f, none)
  | i :: rest =>
    match m.perform f i.op with
    | (g, none) => m.performAll g rest
    | (g, some e) => (g, some e)

end Machine

/-- A run between two blocks. -/
structure Config where
  /-- The block that control is about to enter and the one it comes from, unless the run has
  ended. -/
  position : Option (BlockRef × Option BlockRef)
  env : Env
  history : History

namespace Machine

def land (fn : Func) (r : BlockRef) : Option Exit → Option (BlockRef × Option BlockRef)
  | some (.goto target) => if target ∈ fn.layout then some (target, some r) else none
  | _ => none

def start (m : Machine) (fn : Func) : Config :=
  ⟨fn.layout.head?.map fun r => (r, none), fun _ => m.unassigned, []⟩

/-- Go through one block. A run that has ended stays as it is. -/
def advance (m : Machine) (fn : Func) (c : Config) : Config :=
  match c.position with
  | none => c
  | some (r, came) =>
    let (f, exit) := m.performAll ⟨came, c.env, c.env, c.history⟩ (fn.block r).body
    ⟨land fn r exit, f.env, f.history⟩

theorem advance_of_ended (m : Machine) (fn : Func) {c : Config} (h : c.position = none) :
    m.advance fn c = c := by
  unfold advance
  rw [h]

theorem advance_of_position (m : Machine) (fn : Func) {c : Config} {r : BlockRef}
    {came : Option BlockRef} (h : c.position = some (r, came)) :
    m.advance fn c =
      let done := m.performAll ⟨came, c.env, c.env, c.history⟩ (fn.block r).body
      ⟨land fn r done.2, done.1.env, done.1.history⟩ := by
  unfold advance
  rw [h]

def run (m : Machine) (fn : Func) : Nat → Config
  | 0 => m.start fn
  | n + 1 => m.advance fn (m.run fn n)

/-- The run of the function ends, and this is what was seen of it. -/
def Ends (m : Machine) (fn : Func) (h : History) : Prop :=
  ∃ n, (m.run fn n).position = none ∧ (m.run fn n).history = h

end Machine

end Deadwood

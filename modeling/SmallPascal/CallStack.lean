import SmallPascal.Bindings
import SmallPascal.Value

/-!
# The call stack

A frame holds what one program or one call has bound. A frame of a call names the frame it was
called from, by its index from the bottom of the stack; the frame of a program names none, and
neither does a call on an empty stack. Names are looked up from the newest frame outwards through
the callers, up to the first frame that names none (`CallStack.chain`), so what a routine sees
depends on who calls it and not on where it is declared. Writing always goes to the newest frame.
-/

namespace SmallPascal

/-- What a frame was made for. -/
inductive FrameKind where
  | program
  | routine (kind : RoutineKind)
deriving DecidableEq

/-- What a dump calls a kind of frame. -/
def FrameKind.label : FrameKind → String
  | program => "PROGRAM"
  | routine kind => kind.keyword.spelling

/-- The bindings of one program or one call. -/
structure Frame where
  name : String
  kind : FrameKind
  level : Nat
  /-- The index of the caller, counted from the bottom of the stack. -/
  parent : Option Nat
  members : Bindings

/-- Binds a name in a frame. -/
def Frame.set (f : Frame) (name : String) (v : Value) : Frame :=
  { f with members := f.members.insert name v }

/-- The frame of a program. -/
def Frame.root (name : String) : Frame :=
  ⟨name, .program, 1, none, .empty⟩

/-- The heading of a frame and its bindings, a line for each. -/
def Frame.dump (f : Frame) : String :=
  s!"{f.name} (kind={f.kind.label}, level={f.level})\n" ++
    String.join (f.members.entries.map fun e => s!"\t{e.1} : {e.2.text}\n")

/-- The live frames, the newest first. -/
structure CallStack where
  frames : List Frame

namespace CallStack

/-- The stack without frames. -/
def empty : CallStack :=
  ⟨[]⟩

/-- The newest frame. -/
def current? (s : CallStack) : Option Frame :=
  s.frames.head?

/-- The number of live frames. -/
def depth (s : CallStack) : Nat :=
  s.frames.length

/-- Whether no frame is live. -/
def isEmpty (s : CallStack) : Bool :=
  s.frames.isEmpty

/-- The frame for a call from the newest frame. It takes over the caller's level. -/
def callFrame (s : CallStack) (name : String) (kind : FrameKind) : Frame :=
  match s.frames with
  | [] => ⟨name, kind, 1, none, .empty⟩
  | caller :: below => ⟨name, kind, caller.level, some below.length, .empty⟩

/-- Puts a frame on top. -/
def push (s : CallStack) (f : Frame) : CallStack :=
  ⟨f :: s.frames⟩

/-- Puts the frame of a program on top. -/
def enterProgram (s : CallStack) (name : String) : CallStack :=
  s.push (.root name)

/-- Puts the frame of a call on top. -/
def enterCall (s : CallStack) (name : String) (kind : FrameKind) : CallStack :=
  s.push (s.callFrame name kind)

/-- Takes off the newest frame. -/
def pop (s : CallStack) : Option Frame × CallStack :=
  (s.frames.head?, ⟨s.frames.tail⟩)

/-- Binds a name in the newest frame. -/
def set (s : CallStack) (name : String) (v : Value) : Except RuntimeError CallStack :=
  match s.frames with
  | [] => .error (.undefinedVariable name)
  | f :: below => .ok ⟨f.set name v :: below⟩

/-- The first frames of a stack, up to the first that names no caller. -/
def chainOf : List Frame → List Frame
  | [] => []
  | f :: below => f :: if f.parent.isSome then chainOf below else []

/-- The frames in which names are looked up, in the order of the search. -/
def chain (s : CallStack) : List Frame :=
  chainOf s.frames

/-- The value of a name, from the first frame that binds it. -/
def get? (s : CallStack) (name : String) : Option Value :=
  s.chain.findSome? fun f => f.members.get? name

/-- The routine that a call by a name reaches. Other values are passed over: while a function runs,
its name is bound to its result. -/
def routine? (s : CallStack) (name : String) : Option Routine :=
  s.chain.findSome? fun f => (f.members.get? name).bind Value.routine?

/-- Everything that can be seen, the bindings of newer frames in front of those of older ones. -/
def visible (s : CallStack) : Bindings :=
  s.chain.foldl (fun seen f => seen.orElse f.members) .empty

/-- The frames that can be seen, one after the other. -/
def dump (s : CallStack) : String :=
  String.join (s.chain.map Frame.dump)

end CallStack

end SmallPascal

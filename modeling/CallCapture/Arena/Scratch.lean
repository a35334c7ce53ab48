import CallCapture.Arena.Basic
import CallCapture.Fault
import CallCapture.Memory

namespace CallCapture

structure Handle where
  elem : ElementType
  address : Nat
  count : Nat

structure Scratch where
  arena : Arena
  storage : Memory
  handles : List Handle

namespace Scratch

def new (config : ArenaConfig) (source : ChunkSource) : Scratch := ⟨.new config source, .zero, []⟩

def encodeAll (t : ElementType) (values : List t.Value) : List UInt8 := values.flatMap t.encode

/-- A chunk that a reset kept is not cleared, so every allocation writes all that it hands out. -/
def allocWith (s : Scratch) (t : ElementType) (count : Nat) (init : Nat → Memory → Memory) :
    Except ArenaError Handle × Scratch :=
  match s.arena.reserveArray t count with
  | (.error e, arena) => (.error e, { s with arena })
  | (.ok address, arena) =>
    let handle := ⟨t, address, count⟩
    (.ok handle, ⟨arena, init address s.storage, s.handles ++ [handle]⟩)

def allocCopy (s : Scratch) (t : ElementType) (values : List t.Value) : Except ArenaError Handle × Scratch :=
  s.allocWith t values.length fun address m => m.write address (encodeAll t values)

def alloc (s : Scratch) (t : ElementType) (value : t.Value) : Except ArenaError Handle × Scratch :=
  s.allocCopy t [value]

/-- All bytes of the default value of any type are zero. -/
def allocZeroed (s : Scratch) (t : ElementType) (count : Nat) : Except ArenaError Handle × Scratch :=
  s.allocWith t count fun address m => m.overlay address (count * t.size) .zero

def get (s : Scratch) (h : Handle) (index : Nat) : h.elem.Value :=
  h.elem.decode (s.storage.read (h.address + index * h.elem.size) h.elem.size)

def contents (s : Scratch) (h : Handle) : List h.elem.Value := (List.range h.count).map (s.get h)

def set (s : Scratch) (h : Handle) (index : Nat) (value : h.elem.Value) : Except Fault Unit × Scratch :=
  if index < h.count then
    (.ok (), { s with storage := s.storage.write (h.address + index * h.elem.size) (h.elem.encode value) })
  else (.error (.scratchIndex h.count index), s)

def reset (s : Scratch) : Scratch := { s with arena := s.arena.reset, handles := [] }

end Scratch

/-- What can be asked of a scratch arena. A guarded request answers with the arena's error, an unguarded one
faults with it. -/
inductive ScratchAction
  | reserve (layout : Layout)
  | alloc (guarded : Bool) (elem : ElementType) (value : Literal)
  | allocZeroed (guarded : Bool) (elem : ElementType) (count : Nat)
  | allocCopy (elem : ElementType) (values : List Literal)
  | allocUnit
  | set (handle index : Nat) (value : Literal)
  | contents (handle : Nat)
  | config
  | reset

inductive ScratchAnswer
  | done
  | address (address : Nat)
  | allocated (handle : Handle)
  | elements (values : List Literal)
  | config (config : ArenaConfig)
  | refused (e : ArenaError)
  | fault (f : Fault)

namespace Scratch

def answerAlloc (guarded : Bool) : Except ArenaError Handle × Scratch → ScratchAnswer × Scratch
  | (.ok h, s) => (.allocated h, s)
  | (.error e, s) => (if guarded then .refused e else .fault (.scratch e), s)

def literals (s : Scratch) (h : Handle) : List Literal := (s.contents h).map h.elem.literal

def step (s : Scratch) : ScratchAction → ScratchAnswer × Scratch
  | .reserve layout =>
    match s.arena.reserve layout with
    | (.ok address, arena) => (.address address, { s with arena })
    | (.error e, arena) => (.refused e, { s with arena })
  | .alloc guarded t value => answerAlloc guarded (s.alloc t (t.ofLiteral value))
  | .allocZeroed guarded t count => answerAlloc guarded (s.allocZeroed t count)
  | .allocCopy t values => answerAlloc false (s.allocCopy t (values.map t.ofLiteral))
  | .allocUnit => (.done, { s with arena := (s.arena.reserve .unit).2 })
  | .set handle index value =>
    match s.handles[handle]? with
    | none => (.done, s)
    | some h =>
      match s.set h index (h.elem.ofLiteral value) with
      | (.ok (), s) => (.elements (s.literals h), s)
      | (.error f, s) => (.fault f, s)
  | .contents handle =>
    match s.handles[handle]? with
    | none => (.done, s)
    | some h => (.elements (s.literals h), s)
  | .config => (.config s.arena.config, s)
  | .reset => (.done, s.reset)

def run (s : Scratch) : List ScratchAction → List ScratchAnswer × Scratch
  | [] => ([], s)
  | a :: rest =>
    let (answer, s) := s.step a
    let (answers, s) := s.run rest
    (answer :: answers, s)

end Scratch

end CallCapture

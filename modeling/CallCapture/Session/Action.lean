import CallCapture.Session.Basic

namespace CallCapture

inductive Action
  /-- A view of memory that the view does not own; under `tool` it gets an id of its own. -/
  | borrow (name : String) (elem : ElementType) (tool : Bool) (base count : Nat)
  | make (name : String) (elem : ElementType) (count : Nat)
  | overPool (name : String) (elem : ElementType) (pool : String)
  | share (view name : String)
  | dropView (view : String)
  | createPool (name : String) (size : Nat)
  | dropPool (pool : String)
  | describe (view : String)
  | address (view : String) (index : Nat)
  | get (view : String) (index : Nat)
  | set (view : String) (index : Nat) (value : Literal)
  | elements (view : String)
  | copyTo (view dst : String) (start count dstStart : Nat)
  | poke (address : Nat) (bytes : List UInt8)
  | peek (address length : Nat)
  | sparsePoke (address : Nat) (bytes : List UInt8)
  | sparsePeek (address length : Nat)
  | sparseFill (address length : Nat)
  | setName (name : String)
  | setError (error : ErrorCode)
  | metadata
  | register (phase : Phase) (base size : Nat)
  | registerView (phase : Phase) (view : String)
  | registerForeign (phase : Phase) (base length : Nat) (tool : Bool)
  | readElement (view : String) (index : Nat)
  | writeElement (view : String) (index : Nat) (value : Literal)
  | copy (dst src name : String)
  | cloneView (src name : String)
  | readString (address : Nat)
  | readStringView (view : String)
  | capturePhase (phase : Phase)
  | captureInto
  | record
  | addExtra (extra : Extra)
  | extras
  | encodeExtras (limit : Option Nat)
  | scratch (action : ScratchAction)

inductive Answer
  | done
  | view (v : TypedView)
  | description (v : TypedView)
  | pool (p : Pool)
  | address (address : Nat)
  | element (value : Literal)
  | elements (values : List Literal)
  | bytes (bytes : List UInt8)
  | text (text : String)
  | metadata (name : Option String) (error : ErrorCode) (observesApplication : Bool)
  | region (r : Region)
  | record (r : Option Record)
  | captured (os : List Observation)
  | extras (items : List (Extras × AttachedExtra)) (last : Extras)
  | encoded (written : List UInt8) (failure : Option WireError)
  | scratch (answer : ScratchAnswer) (arena : Arena)
  | stringError (e : StringError)
  | fault (f : Fault)

end CallCapture

import CallCapture.Session.Action

namespace CallCapture.Session

def withView (s : Session) (name : String) (act : TypedView → Answer × Session) : Answer × Session :=
  match s.views.get? name with
  | none => (.done, s)
  | some v => act v

def withViews (s : Session) (name other : String) (act : (t : ElementType) → View t → View t → Answer × Session) :
    Answer × Session :=
  s.withView name fun v => s.withView other fun w =>
    match w.at? v.elem with
    | none => (.done, s)
    | some w => act v.elem v.view w

def nameView {t : ElementType} (s : Session) (name : String) (v : View t) : Answer × Session :=
  (.view ⟨t, v⟩, { s with views := s.views.put name ⟨t, v⟩ })

def withProcess (s : Session) (p : Process) : Session :=
  { s with process := p, observer := s.observer.note (Event.ofPools s.process.pools p.pools) }

def owner (s : Session) (tool : Bool) : Ownership × Session :=
  if tool then
    let (id, process) := s.process.takeId
    (.tool id, { s with process })
  else (.application, s)

def borrow (s : Session) (name : String) (t : ElementType) (tool : Bool) (base count : Nat) : Answer × Session :=
  let (owner, s) := s.owner tool
  s.nameView name (.borrow t owner base count)

def make (s : Session) (name : String) (t : ElementType) (count : Nat) : Answer × Session :=
  match s.process.make t count with
  | (.error f, p) => (.fault f, s.withProcess p)
  | (.ok v, p) => (s.withProcess p).nameView name v

def overPool (s : Session) (name : String) (t : ElementType) (pool : String) : Answer × Session :=
  match s.pools.get? pool with
  | none => (.done, s)
  | some pool =>
    match View.ofPool t pool with
    | .error f => (.fault f, s)
    | .ok v => s.nameView name v

def createPool (s : Session) (name : String) (size : Nat) : Answer × Session :=
  match s.process.createPool size with
  | (.error f, p) => (.fault f, s.withProcess p)
  | (.ok pool, p) =>
    let s := s.withProcess p
    (.pool pool, { s with pools := s.pools.put name pool })

def withMemory (s : Session) (m : Memory) : Session := { s with process := { s.process with memory := m } }

def elements {t : ElementType} (s : Session) (v : View t) : Answer :=
  .elements ((v.elements s.process.memory).map t.literal)

def registerForeign (s : Session) (phase : Phase) (base length : Nat) (tool : Bool) : Answer × Session :=
  let (owner, s) := s.owner tool
  let region := ⟨base, length, owner, none⟩
  (.region region, { s with observer := s.observer.registerObserved phase region })

def copy {t : ElementType} (s : Session) (dst src : View t) (name : String) : Answer × Session :=
  match s.observer.copy s.process.memory dst src with
  | (.error f, observer, memory) => (.fault f, { s.withMemory memory with observer })
  | (.ok v, observer, memory) => { s.withMemory memory with observer }.nameView name v

def cloneView {t : ElementType} (s : Session) (src : View t) (name : String) : Answer × Session :=
  match s.observer.cloneView s.process src with
  | (.error f, observer, process) => (.fault f, { s with observer, process })
  | (.ok v, observer, process) => { s with observer, process }.nameView name v

def encodeExtras (s : Session) (limit : Option Nat) : Answer :=
  match s.observer.extras.encode.run (.ofLimit limit) with
  | .ok _ sink => .encoded sink.written none
  | .error e sink => .encoded sink.written (some e)

def scratch (s : Session) (action : ScratchAction) : Answer × Session :=
  let (answer, scratch) := s.observer.scratch.step action
  let grown := Event.ofArena s.observer.scratch.arena scratch.arena
  (.scratch answer scratch.arena, { s with observer := { s.observer with scratch }.note grown })

/-- A failed action answers with its cause, and one on a name that was never given does nothing. -/
def step (s : Session) : Action → Answer × Session
  | .borrow name t tool base count => s.borrow name t tool base count
  | .make name t count => s.make name t count
  | .overPool name t pool => s.overPool name t pool
  | .share view name => s.withView view fun v => s.nameView name v.view
  | .dropView view => (.done, { s with views := s.views.erase view })
  | .createPool name size => s.createPool name size
  | .dropPool pool => (.done, { s with pools := s.pools.erase pool })
  | .describe view => s.withView view fun v => (.description v, s)
  | .address view index => s.withView view fun v =>
    match v.view.elementAddress index with
    | .error f => (.fault f, s)
    | .ok address => (.address address, s)
  | .get view index => s.withView view fun v =>
    match v.view.get s.process.memory index with
    | .error f => (.fault f, s)
    | .ok value => (.element (v.elem.literal value), s)
  | .set view index value => s.withView view fun v =>
    match v.view.set s.process.memory index (v.elem.ofLiteral value) with
    | .error f => (.fault f, s)
    | .ok memory => (.done, s.withMemory memory)
  | .elements view => s.withView view fun v => (s.elements v.view, s)
  | .copyTo view dst start count dstStart => s.withViews view dst fun _ v dst =>
    match v.copyTo dst s.process.memory start count dstStart with
    | .error f => (.fault f, s)
    | .ok memory => let s := s.withMemory memory; (s.elements dst, s)
  | .poke address bytes => (.done, s.withMemory (s.process.memory.write address bytes))
  | .peek address length => (.bytes (s.process.memory.read address length), s)
  | .sparsePoke address bytes => (.done, { s with sparse := s.sparse.write address bytes })
  | .sparsePeek address length => (.bytes (s.sparse.read address length), s)
  | .sparseFill address length => (.done, { s with sparse := s.sparse.overlay address length .pattern })
  | .setName name => (.done, { s with observer := { s.observer with commandName := some name } })
  | .setError error => (.done, { s with observer := { s.observer with error } })
  | .metadata => (.metadata s.observer.commandName s.observer.error s.observer.observesApplication, s)
  | .register phase base size => (.done, { s with observer := s.observer.register phase base size })
  | .registerView phase view => s.withView view fun v =>
    (.done, { s with observer := s.observer.registerObserved phase v.view.region })
  | .registerForeign phase base length tool => s.registerForeign phase base length tool
  | .readElement view index => s.withView view fun v =>
    match s.observer.readElement s.process.memory v.view index with
    | (.error f, observer) => (.fault f, { s with observer })
    | (.ok value, observer) => (.element (v.elem.literal value), { s with observer })
  | .writeElement view index value => s.withView view fun v =>
    match s.observer.writeElement s.process.memory v.view index (v.elem.ofLiteral value) with
    | .error f => (.fault f, s)
    | .ok (observer, memory) => (.done, { s.withMemory memory with observer })
  | .copy dst src name => s.withViews dst src fun _ dst src => s.copy dst src name
  | .cloneView src name => s.withView src fun v => s.cloneView v.view name
  | .readString address =>
    match s.observer.readString s.process.memory address with
    | (.error e, observer) => (.stringError e, { s with observer })
    | (.ok text, observer) => (.text text, { s with observer })
  | .readStringView view => s.withView view fun v =>
    match v.at? characterType with
    | none => (.done, s)
    | some v =>
      let (text, observer) := s.observer.readStringView s.process.memory v
      (.text text, { s with observer })
  | .capturePhase phase =>
    match s.observer.capturePhase s.reader phase with
    | (.error f, observer) => (.fault f, { s with observer })
    | (.ok (), observer) => (.record observer.record, { s with observer })
  | .captureInto =>
    match s.observer.captureInto s.reader s.captured with
    | (.error f, captured, observer) => (.fault f, { s with captured, observer })
    | (.ok (), captured, observer) => (.captured captured, { s with captured, observer })
  | .record => (.record s.observer.record, s)
  | .addExtra extra => (.done, { s with observer := s.observer.addExtra extra })
  | .extras => let (items, last) := s.observer.extras.walk; (.extras items last, s)
  | .encodeExtras limit => (s.encodeExtras limit, s)
  | .scratch action => s.scratch action

def run (s : Session) (actions : List Action) : Session := actions.foldl (fun s a => (s.step a).2) s

def answers (s : Session) : List Action → List Answer
  | [] => []
  | a :: rest => (s.step a).1 :: (s.step a).2.answers rest

end CallCapture.Session

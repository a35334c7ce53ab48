import CallCapture.Wire.Frame

namespace CallCapture

/-- The call's own record has a place only. It is looked up in a walk, which shows it as it is by then. -/
inductive Attachment
  | record
  | external (extra : Extra)

structure Extras where
  entries : List Attachment
  record : Option Record

inductive AttachedExtra
  | record (r : Record)
  | external (extra : Extra)

namespace AttachedExtra

def toExtra : AttachedExtra → Extra
  | record r => .ofRecord r
  | external extra => extra

def tag (x : AttachedExtra) : UInt8 := x.toExtra.tag

def record? : AttachedExtra → Option Record
  | record r => some r
  | external _ => none

def debugText : AttachedExtra → String
  | record r => s!"Observations({r.debugText})"
  | external extra => s!"External \x7b type_tag: {extra.tag.toNat} \x7d"

end AttachedExtra

namespace Extras

def sizeHint (x : Extras) : Nat × Nat := (0, x.entries.length)

/-- The next item and what is left; the record's place counts only while there is a record. -/
def nextIn (record : Option Record) : List Attachment → Option (AttachedExtra × List Attachment)
  | [] => none
  | .external extra :: rest => some (.external extra, rest)
  | .record :: rest =>
    match record with
    | some r => some (.record r, rest)
    | none => nextIn record rest

theorem length_of_nextIn {record : Option Record} {entries rest : List Attachment} {item : AttachedExtra}
    (h : nextIn record entries = some (item, rest)) : rest.length < entries.length := by
  induction entries with
  | nil => cases h
  | cons entry entries ih =>
      simp only [List.length_cons]
      cases entry with
      | external extra => cases h; omega
      | record =>
          cases record with
          | some r => cases h; omega
          | none => have := ih h; omega

def next? (x : Extras) : Option (AttachedExtra × Extras) :=
  (nextIn x.record x.entries).map fun (item, rest) => (item, { x with entries := rest })

theorem length_of_next? {x y : Extras} {item : AttachedExtra} (h : x.next? = some (item, y)) :
    y.entries.length < x.entries.length := by
  obtain ⟨p, hnext, he⟩ := Option.map_eq_some_iff.mp h
  cases he
  exact length_of_nextIn hnext

/-- Every item, each with the walk before it, and the walk at the end. -/
def walk (x : Extras) : List (Extras × AttachedExtra) × Extras :=
  match _h : x.next? with
  | none => ([], x)
  | some (item, y) =>
    let (items, last) := y.walk
    ((x, item) :: items, last)
termination_by x.entries.length
decreasing_by exact length_of_next? _h

def items (x : Extras) : List AttachedExtra := x.walk.1.map Prod.snd

def encode (x : Extras) : Encoder Unit := x.items.forM fun item => item.toExtra.frame

end Extras

end CallCapture

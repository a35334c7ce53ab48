namespace CallCapture

structure Names (α : Type) where
  entries : List (String × α)

namespace Names

variable {α : Type}

def empty : Names α := ⟨[]⟩

def get? (n : Names α) (name : String) : Option α := n.entries.lookup name

def erase (n : Names α) (name : String) : Names α := ⟨n.entries.filter fun e => e.1 ≠ name⟩

def put (n : Names α) (name : String) (a : α) : Names α := ⟨(name, a) :: (n.erase name).entries⟩

def values (n : Names α) : List α := n.entries.map Prod.snd

end Names

end CallCapture

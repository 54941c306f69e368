namespace Pager

structure Mutex (α : Type) where
  value : α

namespace Mutex

variable {α β : Type}

instance [Inhabited α] : Inhabited (Mutex α) := ⟨⟨default⟩⟩

def withLock (m : Mutex α) (f : α → β × α) : β × Mutex α :=
  let (b, a) := f m.value
  (b, ⟨a⟩)

def modify (m : Mutex α) (f : α → α) : Mutex α := ⟨f m.value⟩

end Mutex

end Pager

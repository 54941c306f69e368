import Pager.File

namespace Pager

def consoleDescriptors : Nat := 3

/-- The open files of a process by descriptor. The lowest descriptors belong to
the console and name no file; a closed descriptor is not given out again. -/
structure Descriptors where
  files : Array (Option FileId) := Array.replicate consoleDescriptors none

namespace Descriptors

def enter (d : Descriptors) (f : FileId) : Nat × Descriptors :=
  (d.files.size, ⟨d.files.push (some f)⟩)

def close (d : Descriptors) (fd : Nat) : Descriptors := ⟨d.files.setIfInBounds fd none⟩

def get? (d : Descriptors) (fd : Nat) : Option FileId := d.files[fd]?.join

end Descriptors

end Pager

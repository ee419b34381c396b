/-!
# Registries

Objects kept under names. A name refers to one object; storing under a name in use drops the object
that had it.
-/

namespace FiberStacks

structure Registry (α : Type) where
  entries : List (String × α)

namespace Registry

variable {α : Type}

def empty : Registry α := ⟨[]⟩

def find? (r : Registry α) (name : String) : Option α :=
  r.entries.lookup name

def erase (r : Registry α) (name : String) : Registry α :=
  ⟨r.entries.filter fun e => e.1 != name⟩

def insert (r : Registry α) (name : String) (a : α) : Registry α :=
  ⟨(name, a) :: (r.erase name).entries⟩

end Registry

end FiberStacks

/-!
# Results with debug records

Some operations leave a record behind when they refuse their input. Such an operation is a
plain function to a result together with the records it wrote, so what is recorded can be stated
and checked like the result itself.
-/
namespace Coinage

/-- A result and the debug records written on the way to it, in order. -/
structure Logged (α : Type) where
  debug : List String
  result : α

namespace Logged

/-- A result with nothing recorded. -/
def silent {α : Type} (result : α) : Logged α := ⟨[], result⟩

/-- A result with one record. -/
def noting {α : Type} (text : String) (result : α) : Logged α := ⟨[text], result⟩

end Logged

end Coinage

import Reckon.Fault

/-!
Host functions. A host offers functions under the names of entries; they see the evaluated
arguments and nothing else.
-/
namespace Reckon

/-- The function behind an entry, given the name it was bound with and its arguments. -/
abbrev Host := (entry name : String) → List Value → Outcome Value

namespace Host

def none : Host := fun _ name _ => throw (.undefinedFunction name)

end Host
end Reckon

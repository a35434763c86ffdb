import Schemata.Failure

/-! Names of engines, which become names of files and directories. -/
namespace Schemata.EngineName

def isNameChar (c : Char) : Bool := c.isAlphanum || c == '_' || c == '-'

def isValid (name : String) : Bool := !name.isEmpty && name.toList.all isNameChar

def check (name : String) : Except Failure Unit :=
  if isValid name then .ok () else .error (.invalidEngine name)

end Schemata.EngineName

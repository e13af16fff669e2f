/-
What a run sees of the files: what stands at each path.

Reading and writing fail for reasons that can be told beforehand from what
stands at a path, so a run can be a function of it.
-/
namespace WorkingTime.CommandLine

/-- Why a file cannot be read or written. -/
inductive FileFault where
  | missing | isFolder | notFolder | nameTooLong
deriving DecidableEq

def FileFault.message : FileFault → String
  | missing => "No such file or directory (os error 2)"
  | isFolder => "Is a directory (os error 21)"
  | notFolder => "Not a directory (os error 20)"
  | nameTooLong => "File name too long (os error 36)"

/-- What stands at a path. -/
inductive Entry where
  /-- A file with this text. -/
  | file (text : String)
  | folder
  /-- Nothing: why it cannot be read, and why no file can be written there, if
  none can. -/
  | nothing (reading : FileFault) (writing : Option FileFault)
deriving DecidableEq

namespace Entry

/-- Nothing, where a file can be written. -/
def free : Entry := nothing .missing none

/-- Nothing, where no file can be written for the reason it cannot be read. -/
def unreachable (fault : FileFault) : Entry := nothing fault (some fault)

def read : Entry → Except FileFault String
  | file text => .ok text
  | folder => .error .isFolder
  | nothing fault _ => .error fault

/-- Why no file can be written, if none can. -/
def writeFault? : Entry → Option FileFault
  | file _ => none
  | folder => some .isFolder
  | nothing _ fault => fault

def isThere : Entry → Bool
  | file _ | folder => true
  | nothing .. => false

end Entry

/-- What stands at each path. -/
abbrev Files := String → Entry

end WorkingTime.CommandLine

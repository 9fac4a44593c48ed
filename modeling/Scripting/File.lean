import Scripting.Text.Lines
import Scripting.Text.Quoted
import Scripting.Text.Utf8

set_option autoImplicit false

/-! # Files

What may be found at a path (`File`), and how it is read as text (`textOfBytes`): its bytes as
UTF-8, with every line end as a line feed. -/

namespace Scripting

/-- What is at a path. -/
inductive File where
  | bytes (content : ByteArray)
  | directory
  | locked
  | missing

/-- Why a file has no text: the system's answer. -/
inductive Unreadable where
  | missing
  | directory
  | locked
  deriving DecidableEq, Repr

/-- The number and the words of the system's answer. -/
def Unreadable.message : Unreadable → String
  | .missing => "[Errno 2] No such file or directory"
  | .directory => "[Errno 21] Is a directory"
  | .locked => "[Errno 13] Permission denied"

/-- The system's answer `why` with the `path` that was asked for. -/
def Unreadable.messageFor (why : Unreadable) (path : String) : String :=
  s!"{why.message}: {Text.quoted path}"

namespace File

/-- The bytes of a file. -/
def read : File → Except Unreadable ByteArray
  | .bytes content => .ok content
  | .directory => .error .directory
  | .locked => .error .locked
  | .missing => .error .missing

end File

/-- The bytes `content` as text with line feeds. -/
def textOfBytes (content : ByteArray) : Except Text.Utf8Fault String :=
  (Text.decodeUtf8 content).map fun s => String.ofList (Text.unifyLineEnds s.toList)

end Scripting

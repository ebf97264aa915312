/-!
# Access to files

The programs touch files in two ways: they read one whole, and they replace or create one
whole. `FileAccess` says just that of any monad, so the same program runs on real files and
on a model of them.
-/

namespace AccumulatorMachine

/-- Why a file cannot be read or written. -/
inductive FileFault where
  | notFound
  | notFolder
  | isFolder
  | nameTooLong
  | notText
  /-- Any other reason, in the words of the system. -/
  | other (text : String)
  deriving DecidableEq

def FileFault.message : FileFault → String
  | notFound => "No such file or directory (os error 2)"
  | notFolder => "Not a directory (os error 20)"
  | isFolder => "Is a directory (os error 21)"
  | nameTooLong => "File name too long (os error 36)"
  | notText => "stream did not contain valid UTF-8"
  | other text => text

/-- Reading and replacing whole files. -/
class FileAccess (m : Type → Type) where
  read : String → m (Except FileFault (List UInt8))
  write : String → List UInt8 → m (Except FileFault Unit)

/-- The text in a byte string, if it is UTF-8. -/
def textOfBytes (bytes : List UInt8) : Except FileFault String :=
  match String.fromUTF8? ⟨bytes.toArray⟩ with
  | some text => .ok text
  | none => .error .notText

def bytesOfText (text : String) : List UInt8 := text.toUTF8.data.toList

end AccumulatorMachine

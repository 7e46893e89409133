/-!
# Reasons a disk refuses an operation

Most reasons have the text and the number under which the operating system
reports them. The others are noticed before the system is asked: a file that is
no text, and a name or an argument that holds the character that ends texts.
-/

namespace SourceAtlas

namespace Disk

/-- Why a file or folder could not be reached, read or run. -/
inductive Error where
  | notFound
  | notAFolder
  | isAFolder
  | accessDenied
  | tooManyLinks
  | nameTooLong
  | notText
  | nulInPath
  /-- A command or one of its arguments holds the character with number zero. -/
  | nulInCommand
  | cannotStart
  deriving DecidableEq, Inhabited, Repr

def Error.message : Error → String
  | .notFound => "No such file or directory (os error 2)"
  | .notAFolder => "Not a directory (os error 20)"
  | .isAFolder => "Is a directory (os error 21)"
  | .accessDenied => "Permission denied (os error 13)"
  | .tooManyLinks => "Too many levels of symbolic links (os error 40)"
  | .nameTooLong => "File name too long (os error 36)"
  | .notText => "stream did not contain valid UTF-8"
  | .nulInPath => "file name contained an unexpected NUL byte"
  | .nulInCommand => "nul byte found in provided data"
  | .cannotStart => "operation not supported on this platform"

end Disk

end SourceAtlas

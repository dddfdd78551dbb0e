/-!
Host error numbers, with the two texts under which they are shown: the long one in file errors,
the symbol and the short one in process errors.
-/
namespace JobShell

/-- A system error number. -/
structure Errno where
  code : Nat
  deriving DecidableEq, Repr

namespace Errno

/-- How an error number is shown. -/
structure Entry where
  symbol : String
  short : String
  long : String

private def same (symbol text : String) : Entry := ⟨symbol, text, text⟩

/-- The entries of the numbers from 1 on. -/
def table : List Entry :=
  [same "EPERM" "Operation not permitted",
    same "ENOENT" "No such file or directory",
    same "ESRCH" "No such process",
    same "EINTR" "Interrupted system call",
    ⟨"EIO", "I/O error", "Input/output error"⟩,
    same "ENXIO" "No such device or address",
    same "E2BIG" "Argument list too long",
    same "ENOEXEC" "Exec format error",
    ⟨"EBADF", "Bad file number", "Bad file descriptor"⟩,
    same "ECHILD" "No child processes",
    ⟨"EAGAIN", "Try again", "Resource temporarily unavailable"⟩,
    ⟨"ENOMEM", "Out of memory", "Cannot allocate memory"⟩,
    same "EACCES" "Permission denied",
    same "EFAULT" "Bad address",
    same "ENOTBLK" "Block device required",
    same "EBUSY" "Device or resource busy",
    same "EEXIST" "File exists",
    ⟨"EXDEV", "Cross-device link", "Invalid cross-device link"⟩,
    same "ENODEV" "No such device",
    same "ENOTDIR" "Not a directory",
    same "EISDIR" "Is a directory",
    same "EINVAL" "Invalid argument",
    ⟨"ENFILE", "File table overflow", "Too many open files in system"⟩,
    same "EMFILE" "Too many open files",
    ⟨"ENOTTY", "Not a typewriter", "Inappropriate ioctl for device"⟩,
    same "ETXTBSY" "Text file busy",
    same "EFBIG" "File too large",
    same "ENOSPC" "No space left on device",
    same "ESPIPE" "Illegal seek",
    same "EROFS" "Read-only file system",
    same "EMLINK" "Too many links",
    same "EPIPE" "Broken pipe",
    ⟨"EDOM", "Math argument out of domain of func", "Numerical argument out of domain"⟩,
    ⟨"ERANGE", "Math result not representable", "Numerical result out of range"⟩,
    ⟨"EDEADLK", "Resource deadlock would occur", "Resource deadlock avoided"⟩,
    same "ENAMETOOLONG" "File name too long",
    ⟨"ENOLCK", "No record locks available", "No locks available"⟩,
    same "ENOSYS" "Function not implemented",
    same "ENOTEMPTY" "Directory not empty",
    ⟨"ELOOP", "Too many symbolic links encountered", "Too many levels of symbolic links"⟩]

def noEntry : Errno := ⟨2⟩
def noProcess : Errno := ⟨3⟩
def badExecutable : Errno := ⟨8⟩
def badHandle : Errno := ⟨9⟩
def noChild : Errno := ⟨10⟩
def accessDenied : Errno := ⟨13⟩
def alreadyExists : Errno := ⟨17⟩
def notDirectory : Errno := ⟨20⟩
def isDirectory : Errno := ⟨21⟩
def invalid : Errno := ⟨22⟩
def noSpace : Errno := ⟨28⟩
def nameTooLong : Errno := ⟨36⟩
def linkLoop : Errno := ⟨40⟩

def entry? (e : Errno) : Option Entry := if e.code = 0 then none else table[e.code - 1]?

/-- The text of a process error: the symbol and the short text. -/
def describe (e : Errno) : String :=
  match e.entry? with
  | some row => row.symbol ++ ": " ++ row.short
  | none => "UnknownErrno: Unknown errno"

/-- The text of a file error: the long text and the number. -/
def fileText (e : Errno) : String :=
  let text := (e.entry?.map Entry.long).getD ("Unknown error " ++ toString e.code)
  text ++ " (os error " ++ toString e.code ++ ")"

example : noSpace.fileText = "No space left on device (os error 28)" := by decide
example : noChild.describe = "ECHILD: No child processes" := by decide

end Errno

/-- Why reading or opening a file failed. -/
inductive FileError where
  | system (cause : Errno)
  | nullInPath
  | notText
  | sourceDepth (limit : Nat)
  deriving DecidableEq, Repr

namespace FileError

def message : FileError → String
  | system cause => cause.fileText
  | nullInPath => "file name contained an unexpected NUL byte"
  | notText => "stream did not contain valid UTF-8"
  | sourceDepth limit => "maximum source depth (" ++ toString limit ++ ") exceeded"

end FileError
end JobShell

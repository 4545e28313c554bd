/-!
# Operating-system errors

A system call fails with an error number. Messages show the standard text of the number followed by
the number itself. The errors that the file system of this library can give have names. A `Cause` is
an error number or a reason in words.
-/

namespace BlobCache

/-- An error number of the operating system. -/
structure SystemError where
  /-- The number. -/
  code : Int
  deriving DecidableEq, Repr

namespace SystemError

/-! ## Named errors -/

/-- The operation is not permitted, as a hard link to a directory. -/
def notPermitted : SystemError := ⟨1⟩
/-- Nothing has this name. -/
def noEntry : SystemError := ⟨2⟩
/-- The handle does not allow the operation. -/
def badDescriptor : SystemError := ⟨9⟩
/-- The lock is held elsewhere. -/
def wouldBlock : SystemError := ⟨11⟩
/-- The permission bits do not allow the operation. -/
def permissionDenied : SystemError := ⟨13⟩
/-- The memory to write from is not there. -/
def badAddress : SystemError := ⟨14⟩
/-- Something has this name already. -/
def alreadyExists : SystemError := ⟨17⟩
/-- A file stands where a directory is needed. -/
def notDirectory : SystemError := ⟨20⟩
/-- A directory stands where a file is needed. -/
def isDirectory : SystemError := ⟨21⟩
/-- The argument makes no sense for the call. -/
def invalidArgument : SystemError := ⟨22⟩
/-- A name is too long. -/
def nameTooLong : SystemError := ⟨36⟩
/-- The directory still has entries. -/
def notEmpty : SystemError := ⟨39⟩
/-- A symbolic link that may not be followed, or too many of them. -/
def linkLoop : SystemError := ⟨40⟩

/-! ## Texts -/

/-- The standard texts, by number; an empty text stands at a number without one. -/
def texts : Array String := #[
    "Success", "Operation not permitted", "No such file or directory", "No such process",
    "Interrupted system call", "Input/output error", "No such device or address",
    "Argument list too long", "Exec format error", "Bad file descriptor", "No child processes",
    "Resource temporarily unavailable", "Cannot allocate memory", "Permission denied",
    "Bad address", "Block device required", "Device or resource busy", "File exists",
    "Invalid cross-device link", "No such device", "Not a directory", "Is a directory",
    "Invalid argument", "Too many open files in system", "Too many open files",
    "Inappropriate ioctl for device", "Text file busy", "File too large", "No space left on device",
    "Illegal seek", "Read-only file system", "Too many links", "Broken pipe",
    "Numerical argument out of domain", "Numerical result out of range",
    "Resource deadlock avoided", "File name too long", "No locks available",
    "Function not implemented", "Directory not empty", "Too many levels of symbolic links", "",
    "No message of desired type", "Identifier removed", "Channel number out of range",
    "Level 2 not synchronized", "Level 3 halted", "Level 3 reset", "Link number out of range",
    "Protocol driver not attached", "No CSI structure available", "Level 2 halted",
    "Invalid exchange", "Invalid request descriptor", "Exchange full", "No anode",
    "Invalid request code", "Invalid slot", "", "Bad font file format", "Device not a stream",
    "No data available", "Timer expired", "Out of streams resources",
    "Machine is not on the network", "Package not installed", "Object is remote",
    "Link has been severed", "Advertise error", "Srmount error", "Communication error on send",
    "Protocol error", "Multihop attempted", "RFS specific error", "Bad message",
    "Value too large for defined data type", "Name not unique on network",
    "File descriptor in bad state", "Remote address changed",
    "Can not access a needed shared library", "Accessing a corrupted shared library",
    ".lib section in a.out corrupted", "Attempting to link in too many shared libraries",
    "Cannot exec a shared library directly", "Invalid or incomplete multibyte or wide character",
    "Interrupted system call should be restarted", "Streams pipe error", "Too many users",
    "Socket operation on non-socket", "Destination address required", "Message too long",
    "Protocol wrong type for socket", "Protocol not available", "Protocol not supported",
    "Socket type not supported", "Operation not supported", "Protocol family not supported",
    "Address family not supported by protocol", "Address already in use",
    "Cannot assign requested address", "Network is down", "Network is unreachable",
    "Network dropped connection on reset", "Software caused connection abort",
    "Connection reset by peer", "No buffer space available",
    "Transport endpoint is already connected", "Transport endpoint is not connected",
    "Cannot send after transport endpoint shutdown", "Too many references: cannot splice",
    "Connection timed out", "Connection refused", "Host is down", "No route to host",
    "Operation already in progress", "Operation now in progress", "Stale file handle",
    "Structure needs cleaning", "Not a XENIX named type file", "No XENIX semaphores available",
    "Is a named type file", "Remote I/O error", "Disk quota exceeded", "No medium found",
    "Wrong medium type", "Operation canceled", "Required key not available", "Key has expired",
    "Key has been revoked", "Key was rejected by service", "Owner died", "State not recoverable",
    "Operation not possible due to RF-kill", "Memory page has hardware error"]

/-- The standard text of a number, if it has one. -/
def text? : Int → Option String
  | .ofNat code => texts[code]?.filter fun text => !text.isEmpty
  | .negSucc _ => none

/-- The standard text of an error. -/
def text (e : SystemError) : String := (text? e.code).getD s!"Unknown error {e.code}"

/-- The text of an error with its number. -/
def message (e : SystemError) : String := s!"{e.text} (os error {e.code})"

end SystemError

/-! ## Causes of failure -/

/-- Why an operation on a file failed. -/
inductive Cause where
  /-- The operating system refused it. -/
  | system (error : SystemError)
  /-- It failed for a reason given in words. -/
  | custom (text : String)
  deriving DecidableEq, Repr

namespace Cause

/-- The text of a cause. -/
def message : Cause → String
  | .system error => error.message
  | .custom text => text

/-- A path with a zero byte names nothing and is refused before the operating system sees it. -/
def zeroByte : Cause := .custom "file name contained an unexpected NUL byte"

end Cause

end BlobCache

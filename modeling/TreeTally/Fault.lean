import TreeTally.Path.Basic

namespace TreeTally

inductive FaultKind
  | notFound | permissionDenied | alreadyExists | invalidInput | invalidData | invalidFilename
  | notADirectory | isADirectory | directoryNotEmpty | readOnlyFilesystem | filesystemLoop
  | staleNetworkFileHandle | storageFull | notSeekable | quotaExceeded | fileTooLarge
  | resourceBusy | executableFileBusy | deadlock | crossesDevices | tooManyLinks
  | argumentListTooLong | connectionRefused | connectionReset | connectionAborted
  | hostUnreachable | networkUnreachable | networkDown | notConnected | addrInUse
  | addrNotAvailable | brokenPipe | wouldBlock | timedOut | writeZero | interrupted
  | unsupported | unexpectedEof | outOfMemory | other
  deriving DecidableEq

inductive SystemCode
  | noEntry
  | notDirectory
  | nameTooLong
  | linkLoop
  deriving DecidableEq

inductive Fault
  | missing (p : Path)
  | linkLoop (p : Path)
  /-- The entry is there, but its metadata is not to be had. -/
  | unqueryable (p : Path)
  | notDirectory (p : Path)
  | denied (p : Path)
  | system (code : SystemCode)
  | nulInName
  /-- A fault met at one entry of a folder listing. -/
  | visiting (p : Path) (cause : Fault)
  | custom (kind : FaultKind) (message : String)

def SystemCode.kind : SystemCode → FaultKind
  | noEntry => .notFound
  | notDirectory => .notADirectory
  | nameTooLong => .invalidFilename
  | linkLoop => .filesystemLoop

def SystemCode.message : SystemCode → String
  | noEntry => "No such file or directory (os error 2)"
  | notDirectory => "Not a directory (os error 20)"
  | nameTooLong => "File name too long (os error 36)"
  | linkLoop => "Too many levels of symbolic links (os error 40)"

def Fault.kind : Fault → FaultKind
  | missing _ => .notFound
  | denied _ => .permissionDenied
  | linkLoop _ | unqueryable _ | notDirectory _ => .other
  | system code => code.kind
  | nulInName => .invalidInput
  | visiting _ cause => cause.kind
  | custom kind _ => kind

def Fault.message : Fault → String
  | missing p => "no such entry: " ++ p.display
  | linkLoop p => "too many levels of symbolic links: " ++ p.display
  | unqueryable p => "metadata query failed: " ++ p.display
  | notDirectory p => "not a directory: " ++ p.display
  | denied p => "permission denied: " ++ p.display
  | system code => code.message
  | nulInName => "file name contained an unexpected NUL byte"
  | visiting p cause => "IO error for operation on " ++ p.display ++ ": " ++ cause.message
  | custom _ message => message

end TreeTally

namespace Rust

/-!
# `std::io::Error`

The kinds of an input/output error and the error itself: a kind and the text it displays.
-/

/-- `std::io::ErrorKind`. -/
inductive ErrorKind where
  | notFound | permissionDenied | connectionRefused | connectionReset | hostUnreachable
  | networkUnreachable | connectionAborted | notConnected | addrInUse | addrNotAvailable
  | networkDown | brokenPipe | alreadyExists | wouldBlock | notADirectory | isADirectory
  | directoryNotEmpty | readOnlyFilesystem | filesystemLoop | staleNetworkFileHandle
  | invalidInput | invalidData | timedOut | writeZero | storageFull | notSeekable
  | quotaExceeded | fileTooLarge | resourceBusy | executableFileBusy | deadlock
  | crossesDevices | tooManyLinks | invalidFilename | argumentListTooLong | interrupted
  | unsupported | unexpectedEof | outOfMemory | inProgress | other | uncategorized
  deriving DecidableEq, Repr

/-- `std::io::Error`: its kind and the text `Display` shows. -/
structure IoError where
  kind    : ErrorKind
  message : String
  deriving DecidableEq, Repr

/-- `io::Error::other`. -/
def IoError.other (message : String) : IoError := ⟨.other, message⟩

/-- The error `read_exact` returns when the stream ends early. -/
def IoError.eof : IoError := ⟨.unexpectedEof, "failed to fill whole buffer"⟩

end Rust

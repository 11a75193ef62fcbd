/-!
# Error codes
-/

set_option autoImplicit false

namespace Chino

/-- `error_code` -/
inductive ErrorCode where
  | success | fail | argumentNull | invalidArgument | outOfMemory | notFound | unavailable
  | keyAlreadyExists | notImplemented | notSupported | invalidPath | insufficientBuffer | ioError
  | badCast | timeout | again | slowIo | ioPending | messageTooLong | noSuchDevice
deriving DecidableEq

end Chino

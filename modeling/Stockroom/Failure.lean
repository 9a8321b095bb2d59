/-!
The ways in which an operation of the store room can fail. A failure is an answer that the
caller is handed; a crash ends the computation that it happens in without an answer.
-/

namespace Stockroom
set_option autoImplicit false

/-- Why a caller got no value. -/
inductive Failure where
  | load (text : String)
  /-- The execution that was loading this key ended without an outcome. -/
  | loadAbandoned (key : String)
  | cancelled (key : String)
  | create (text : String)
  | poolClosed
  | backend (text : String)
  /-- A value could not be written as text, or not be read back. -/
  | codec
deriving DecidableEq, Repr, Inhabited

/-- The text shown for a failure. Loader and factory texts pass through unchanged. -/
def Failure.message : Failure → String
  | load text => text
  | loadAbandoned key => "load of `" ++ key ++ "` was abandoned before completing"
  | cancelled key => "wait for `" ++ key ++ "` was cancelled"
  | create text => text
  | poolClosed => "pool is closed"
  | backend text => "backend error: " ++ text
  | codec => "codec error"

/-- A computation that ended abruptly, with the text it left. -/
structure Crash where
  text : String
deriving DecidableEq, Repr, Inhabited

/-- The crash of a write whose deadline lies beyond what an instant can hold. -/
def Crash.deadlineOverflow : Crash := ⟨"overflow when adding duration to instant"⟩

/-- The crash of a write whose weight is more than a word can add to the used bytes. -/
def Crash.weightOverflow : Crash := ⟨"attempt to add with overflow"⟩

/-- The crash of building a cache that was to hand out more permits than there can be. -/
def Crash.tooManyPermits : Crash :=
  ⟨"a semaphore may not have more than MAX_PERMITS permits (2305843009213693951)"⟩

/-- What can come back from an operation in the place of an answer. -/
inductive Fault where
  | failed (failure : Failure)
  | crashed (crash : Crash)
deriving DecidableEq, Repr, Inhabited

end Stockroom

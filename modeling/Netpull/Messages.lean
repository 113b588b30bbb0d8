import Netpull.Bytes

/-!
# Messages

The messages of `netpull.proto`. A `oneof` is an inductive type with a case for the unset field; a
submessage whose presence is never tested is its value, which is the default one if it is absent.
-/

namespace Netpull

/-- `PullRequest`. -/
inductive PullRequest
  | unset
  | start (path : Bytes)
  | continue_ (job : Bytes)
  | file (id : Bytes)
  | success (job path : Bytes)
deriving DecidableEq, Repr

/-- `google.protobuf.Timestamp`. -/
structure Timestamp where
  seconds : Int64
  nanos : Int32
deriving DecidableEq, Repr

/-- `PullObject.Type`; an unknown value is kept as it is. -/
inductive PullObject.Type
  | kTypeDirectory
  | kTypeFile
  | kTypeSymlink
  | other (value : Int32)
deriving DecidableEq, Repr

namespace PullObject

structure Ownership where
  uid : Int32
  gid : Int32
  user : Bytes
  group : Bytes
deriving DecidableEq, Repr

structure Times where
  access : Timestamp
  modify : Timestamp
deriving DecidableEq, Repr

structure FileTransferInfo where
  sha256 : Bytes
  bytes : Int32
  id : Bytes
deriving DecidableEq, Repr

structure NonlinkData where
  perms : Int32
deriving DecidableEq, Repr

structure SymlinkData where
  target : Bytes
  relativeToRoot : Bool
deriving DecidableEq, Repr

inductive Data
  | unset
  | nonlink (data : NonlinkData)
  | symlink (data : SymlinkData)
deriving DecidableEq, Repr

end PullObject

/-- `PullResponse.PullObject`. -/
structure PullObject where
  number : Int64
  path : Bytes
  type : PullObject.Type
  owner : PullObject.Ownership
  times : PullObject.Times
  transfer : Option PullObject.FileTransferInfo
  data : PullObject.Data
deriving DecidableEq, Repr

/-- `PullObject::nonlink`, which is the default value if it is not set. -/
def PullObject.nonlink (pull : PullObject) : NonlinkData :=
  match pull.data with
  | .nonlink data => data
  | _ => ⟨0⟩

/-- `PullObject::symlink`. -/
def PullObject.symlink (pull : PullObject) : SymlinkData :=
  match pull.data with
  | .symlink data => data
  | _ => ⟨[], false⟩

/-- `PullResponse`. -/
inductive PullResponse
  | unset
  | started (job : Bytes)
  | finished (total : Int64)
  | object (pull : PullObject)
  | error (message : Bytes)
deriving DecidableEq, Repr

/-- The objects among some messages. -/
def objectsOf (messages : List PullResponse) : List PullObject :=
  messages.filterMap fun
    | .object pull => some pull
    | _ => none

theorem objectsOf_append (messages messages' : List PullResponse) :
    objectsOf (messages ++ messages') = objectsOf messages ++ objectsOf messages' :=
  List.filterMap_append

/-- The job that a message starts. -/
def PullResponse.job : PullResponse → Option Bytes
  | .started job => some job
  | _ => none

/-- The jobs that some messages start. -/
def jobsOf (messages : List PullResponse) : List Bytes := messages.filterMap PullResponse.job

theorem jobsOf_append (messages messages' : List PullResponse) :
    jobsOf (messages ++ messages') = jobsOf messages ++ jobsOf messages' :=
  List.filterMap_append

end Netpull

import Netpull.Messages

/-!
# HandleTransfer

What the client does with an object message: it creates the object in the destination directory and
goes on with its content or its metadata.
-/

namespace Netpull

open PullObject

/-- The target of the symlink the client creates. -/
def linkTarget (dest : Bytes) (symlink : SymlinkData) : Bytes :=
  if symlink.relativeToRoot then dest ++ [slash] ++ symlink.target else symlink.target

/-- The call that creates an object. Its string arguments are C strings. -/
inductive CreateCall
  | openat (path : Bytes)
  | mkdirat (path : Bytes) (perms : Int32)
  | symlinkat (target path : Bytes)
deriving DecidableEq, Repr

/-- The `switch` of `HandleTransfer`. -/
def createCall (dest : Bytes) (pull : PullObject) : Except Fault CreateCall :=
  match pull.type with
  | .kTypeFile => .ok (.openat (cstr pull.path))
  | .kTypeDirectory => .ok (.mkdirat (cstr pull.path) pull.nonlink.perms)
  | .kTypeSymlink => .ok (.symlinkat (cstr (linkTarget dest pull.symlink)) (cstr pull.path))
  | .other _ => .error (.assertion (text "Unexpected pull type"))

end Netpull

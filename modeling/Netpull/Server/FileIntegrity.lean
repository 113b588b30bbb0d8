import Netpull.Crypto
import Netpull.Server.ClientSendCrawler

/-!
# FileIntegrityTask of the server

Reads a file to its end and announces it with its digest. A file that cannot be opened or read, or
whose digest cannot be computed, is not announced at all.
-/

namespace Netpull

/-- `FileIntegrityTask::Run` up to the sending, on a connection that stays alive. -/
def IntegrityCalls.digest (calls : IntegrityCalls) : Option Bytes :=
  if !calls.opens then none
  else if !calls.eof then none
  else calls.finish

theorem IntegrityCalls.digest_isSome (calls : IntegrityCalls) :
    calls.digest.isSome = (calls.opens && calls.eof && calls.hashes) := by
  rw [digest, ← finish_isSome]
  cases calls.opens with
  | false => rfl
  | true => cases calls.eof <;> rfl

/-- `mutable_transfer()->set_sha256`. -/
def PullObject.setSha256 (pull : PullObject) (digest : Bytes) : PullObject :=
  { pull with transfer := some { pull.transfer.getD ⟨[], 0, []⟩ with sha256 := digest } }

/-- The message a task sends, if any; `digest` gives the digests of the files. -/
def IntegrityTask.message (digest : Bytes → Option Bytes) (task : IntegrityTask) :
    Option PullObject :=
  (digest task.path).map task.pull.setSha256

/-- The message that comes of an object at last. -/
def Outgoing.message (digest : Bytes → Option Bytes) : Outgoing → Option PullObject
  | .send pull => some pull
  | .submit _ ready pull => IntegrityTask.message digest ⟨pull, ready.path⟩

/-- The message of an object as the crawler has made it. -/
def Outgoing.pull : Outgoing → PullObject
  | .send pull => pull
  | .submit _ _ pull => pull

theorem Outgoing.message_some {digest : Bytes → Option Bytes} {out : Outgoing} {q : PullObject}
    (h : out.message digest = some q) :
    q.path = out.pull.path ∧ q.type = out.pull.type ∧ q.number = out.pull.number := by
  cases out with
  | send pull =>
    obtain rfl := Option.some.inj h
    exact ⟨rfl, rfl, rfl⟩
  | submit id ready pull =>
    obtain ⟨d, -, rfl⟩ := Option.map_eq_some_iff.1 h
    exact ⟨rfl, rfl, rfl⟩

end Netpull

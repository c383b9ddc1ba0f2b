import Etoeragcb.Lib.Fault
import Etoeragcb.Lib.Unicode
import Etoeragcb.Models.Content

/-!
# Document storage beside a session

`LocalDocumentStorage` of `app/ingest/storage.py` without `stage_upload`, and the session of a request. Of the
directories only those of files are kept, so that a directory is there when a file lies in it.
-/

namespace Etoeragcb.Ingest

open Lib Models

abbrev Bytes := List UInt8

/-- `<tenant>/<document>/<version>/<name>` -/
structure StorageKey where
  tenantId : TenantId
  documentId : DocumentId
  documentVersionId : VersionId
  name : Text
deriving DecidableEq

/-- A path under the storage root. -/
inductive Path
  | staging (name : Text)
  | original (key : StorageKey)
deriving DecidableEq

abbrev Files := Table Path Bytes

structure StagedUpload where
  tempPath : Text
  sourceFilename : Text
  mime : Text
  fileSha256 : Text
  sizeBytes : Nat
deriving DecidableEq

inductive Failure
  | http (status : Nat) (detail : String)
  | integrityError | osError | valueError | other
deriving DecidableEq

/-- The operations that may raise. A copy that raises has written some bytes. -/
inductive Point
  | requestHash | tenant | document | source | claim | rollback | discard | quota | collections | nextVersion
  | makeDirectory | replace | openCopy | copy (written : Nat) | chmod | flush | complete | commit
deriving DecidableEq

/-- The committed rows, the rows as the transaction of the session sees them, and the files. `storageKey` is a local
variable of the handlers. -/
structure World (ρ : Type) where
  committed : ρ
  session : ρ
  files : Files
  storageKey : Option StorageKey

abbrev Handler (ρ α : Type) := FaultM Point Failure (World ρ) α

variable {ρ : Type}

/-! ## The session -/

def rows : Handler ρ ρ := do return (← getState).session

def setRows (r : ρ) : Handler ρ Unit := modifyState fun w => { w with session := r }

/-- The rows that a computation over the session writes. -/
def writeRows (x : Option ρ) (e : Failure) : Handler ρ Unit := do setRows (← orFail x e)

def undoRows : Handler ρ Unit := modifyState fun w => { w with session := w.committed }

def rollback : Handler ρ Unit := do
  reach .rollback
  undoRows

def commitSession : Handler ρ Unit := do
  reach .commit
  modifyState fun w => { w with committed := w.session }

/-! ## The storage -/

def Files.remove (files : Files) (path : Path) : Files := Table.delete (fun k _ => k = path) files

def Files.inDirectory (files : Files) (key : StorageKey) : Bool :=
  files.rows.any fun x => match x.1 with
    | .original k => k.tenantId = key.tenantId && k.documentId = key.documentId &&
        k.documentVersionId = key.documentVersionId
    | .staging _ => false

/-- `PurePath.suffix` of a file name. -/
def suffix (name : Text) : Text :=
  let extension := (name.reverse.takeWhile (· ≠ '.')).reverse
  if extension ≠ [] ∧ extension.length + 1 < name.length then '.' :: extension else []

/-- `destination.parent.mkdir(parents=True, exist_ok=False)` -/
def makeDirectory (key : StorageKey) : Handler ρ Unit := do
  reach .makeDirectory
  if (← getState).files.inDirectory key then throw .osError

def setFiles (f : Files → Files) : Handler ρ Unit := modifyState fun w => { w with files := f w.files }

/-- `storage_key = ...` -/
def setStorageKey (key : StorageKey) : Handler ρ Unit := modifyState fun w => { w with storageKey := some key }

/-- The files after `os.replace`. -/
def replaced (files : Files) (source target : Path) (content : Bytes) : Files := (files.remove source).put target content

def commit (u : Unicode) (staged : StagedUpload) (tenantId : TenantId) (documentId : DocumentId)
    (documentVersionId : VersionId) : Handler ρ StorageKey := do
  let key : StorageKey := ⟨tenantId, documentId, documentVersionId,
    "original".toList ++ u.casefold (suffix staged.sourceFilename)⟩
  makeDirectory key
  reach .replace
  let content ← orFail ((← getState).files.get? (.staging staged.tempPath)) .osError
  setFiles fun files => replaced files (.staging staged.tempPath) (.original key) content
  setStorageKey key
  return key

def removeFile (path : Path) : Handler ρ Unit := setFiles (·.remove path)

def discard (staged : StagedUpload) : Handler ρ Unit := do
  reach .discard
  removeFile (.staging staged.tempPath)

/-- `shutil.copyfile` -/
def copyFile (source target : StorageKey) : Handler ρ Unit := do
  reach .openCopy
  let content ← orFail ((← getState).files.get? (.original source)) .osError
  match (← get).pending with
  | some ⟨.copy written, failure⟩ =>
      setFiles (·.put (.original target) (content.take written))
      modify fun w => { w with pending := none }
      throw failure
  | _ => setFiles (·.put (.original target) content)

def clone (source : StorageKey) (tenantId : TenantId) (documentId : DocumentId) (documentVersionId : VersionId) :
    Handler ρ StorageKey := do
  let key : StorageKey := ⟨tenantId, documentId, documentVersionId, source.name⟩
  makeDirectory key
  copyFile source key
  reach .chmod
  setStorageKey key
  return key

end Etoeragcb.Ingest

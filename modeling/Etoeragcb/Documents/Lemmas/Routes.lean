import Etoeragcb.Documents.Routes

/-!
# What a request leaves behind when it stops

Until its commit a request changes no committed row and at most one file, whose path the local variable `storage_key`
tells. An exception leaves it so, but for the copy of a file that is not finished.
-/

namespace Etoeragcb.Documents

open Lib Models Ingest Etoeragcb.Core Std.Do

set_option mvcgen.warning false

/-- The points that are never behind a file that `storage_key` does not tell. -/
def isUsual : Point → Bool
  | .requestHash | .copy _ | .chmod => false
  | _ => true

/-- What was there before a request, the path of the file that came with it, the exception that is raised, and the
points where it cannot be undone. -/
structure Start where
  committed : Rows
  files : Files
  staged : Option Path
  fault : Option (Fault Point Failure)
  leaks : Point → Bool
  leaks_usual : ∀ p, isUsual p = true → leaks p = false

/-- No file but the one under the path has changed, and no file was there. -/
structure OnlyAt (files : Files) (path : Option Path) (files' : Files) : Prop where
  none_at : ∀ p, path = some p → files.get? p = none
  other : ∀ p, path ≠ some p → files'.get? p = files.get? p

def toRemove (staged : Option Path) (storageKey : Option StorageKey) : Option Path :=
  match storageKey with
  | some key => some (.original key)
  | none => staged

variable (x : Start)

/-- The request has written no committed row, and no file but the one that it has to remove. -/
def Undoable (w : World Rows) : Prop :=
  w.committed = x.committed ∧ OnlyAt x.files (toRemove x.staged w.storageKey) w.files

/-- The request has its file under `k`, and its exception is still pending. -/
structure Going (k : Option StorageKey) (w : Faulted Point Failure (World Rows)) : Prop where
  storageKey : w.state.storageKey = k
  undoable : Undoable x w.state
  pending : w.pending = x.fault

/-- The exception was raised where the request can be undone. -/
structure Halted (k : Option StorageKey) (w : Faulted Point Failure (World Rows)) : Prop where
  storageKey : w.state.storageKey = k
  undoable : Undoable x w.state
  pending : w.pending = x.fault ∨ ∃ f, x.fault = some f ∧ x.leaks f.point = false

/-- The exception was raised where the request can be undone, or behind a file that stays. -/
inductive Stopped (w : Faulted Point Failure (World Rows)) : Prop
  | halted {k : Option StorageKey} (h : Halted x k w)
  | leaking {f : Fault Point Failure} {path : Path} (hf : x.fault = some f) (hu : x.leaks f.point = true)
      (hp : w.pending = none) (hk : w.state.storageKey = none) (hstaged : x.staged ≠ some path)
      (hnone : x.files.get? path = none) (hsome : w.state.files.get? path ≠ none)

/-- What holds where a request with its file under `k` stops. -/
class Exits (k : Option StorageKey) (E : Faulted Point Failure (World Rows) → Prop) : Prop where
  of_halted : ∀ w, Halted x k w → E w

instance (k : Option StorageKey) : Exits x k (Stopped x) := ⟨fun _ => .halted⟩

variable {α β : Type} {k k' : Option StorageKey}

/-- From `P` a request leads to `Q`, or stops in `E`. -/
def Leads (E P : Faulted Point Failure (World Rows) → Prop) (m : RequestHandler α)
    (Q : α → Faulted Point Failure (World Rows) → Prop) : Prop :=
  ⦃fun w => ⌜P w⌝⦄ m ⦃post⟨fun a w => ⌜Q a w⌝, fun _ w => ⌜E w⌝⟩⦄

/-- The request goes on behind `m` with its file in place. -/
abbrev Keeps (E : Faulted Point Failure (World Rows) → Prop) (k : Option StorageKey) (m : RequestHandler α) : Prop :=
  Leads E (Going x k) m fun _ => Going x k

variable {x} {m : RequestHandler α} {f : α → RequestHandler β} {E P : Faulted Point Failure (World Rows) → Prop}
  {R : α → Faulted Point Failure (World Rows) → Prop} {Q : β → Faulted Point Failure (World Rows) → Prop}
  {w : Faulted Point Failure (World Rows)}

theorem Going.halted (h : Going x k w) : Halted x k w := ⟨h.storageKey, h.undoable, Or.inl h.pending⟩

/-! ## Rules -/

theorem Leads.bind (hm : Leads E P m R) (hf : ∀ a, Leads E (R a) (f a) Q) : Leads E P (m >>= f) Q := by
  unfold Leads at hm hf ⊢
  mvcgen [hm, hf]

theorem leads_pure (R : α → Faulted Point Failure (World Rows) → Prop) (a : α) : Leads E (R a) (pure a) R := by
  unfold Leads
  mvcgen

theorem keeps_pure (a : α) : Keeps x E k (pure a : RequestHandler α) := leads_pure (fun _ => Going x k) a

theorem keeps_getState : Keeps x E k (getState : RequestHandler (World Rows)) := by
  unfold Keeps Leads
  mvcgen [getState]

/-- The exception that is pending is the one of the start. -/
theorem leads_get : Leads E (Going x k) (get : RequestHandler (Faulted Point Failure (World Rows))) fun w w' =>
    Going x k w' ∧ w.pending = x.fault := by
  unfold Leads
  mvcgen
  rename_i hg
  exact ⟨hg, hg.pending⟩

theorem leads_modifyState {g : World Rows → World Rows} {S : Unit → Faulted Point Failure (World Rows) → Prop}
    (h : ∀ w, P w → S () { w with state := g w.state }) : Leads E P (modifyState g) S := by
  unfold Leads
  mvcgen [modifyState]
  rename_i w hw _
  exact h w hw

theorem keeps_rows : Keeps x E k (rows : RequestHandler Rows) := keeps_getState.bind fun w => keeps_pure w.session

theorem keeps_setRows (r : Rows) : Keeps x E k (setRows r) :=
  leads_modifyState fun _ hg => ⟨hg.storageKey, hg.undoable, hg.pending⟩

theorem keeps_undoRows : Keeps x E k undoRows := leads_modifyState fun _ hg => ⟨hg.storageKey, hg.undoable, hg.pending⟩

abbrev Unraised (x : Start) (w : Faulted Point Failure (World Rows)) : Prop := w.pending = x.fault

theorem leads_unraised (h : Keeps x E k m) : Leads E (Going x k) m fun _ => Unraised x := by
  unfold Keeps Leads at *
  mvcgen [h]
  exact Going.pending

section Exits

variable [Exits x k E]

theorem leads_throw (e : Failure) : Leads E (Going x k) (throw e : RequestHandler β) Q := by
  unfold Leads
  mvcgen
  exact Exits.of_halted _ (Going.halted ‹_›)

theorem keeps_reach_of {p : Point} (hp : x.leaks p = false) : Keeps x E k (reach p : RequestHandler Unit) := by
  unfold Keeps Leads
  mvcgen [reach]
  rename_i w hg f hf hpoint
  exact Exits.of_halted _ ⟨hg.storageKey, hg.undoable, Or.inr ⟨f, hg.pending ▸ hf, hpoint ▸ hp⟩⟩

theorem keeps_reach {p : Point} (hp : isUsual p = true) : Keeps x E k (reach p : RequestHandler Unit) :=
  keeps_reach_of (x.leaks_usual p hp)

theorem keeps_orFail (o : Option α) (e : Failure) : Keeps x E k (orFail o e : RequestHandler α) := by
  cases o with
  | some a => exact keeps_pure a
  | none => exact leads_throw e

theorem keeps_writeRows (o : Option Rows) (e : Failure) : Keeps x E k (writeRows o e) :=
  (keeps_orFail o e).bind keeps_setRows

theorem keeps_rollback : Keeps x E k rollback := (keeps_reach rfl).bind fun _ => keeps_undoRows

/-! ## The steps of a request -/

variable {settings : Settings} {r : Request}

theorem keeps_lockTenant : Keeps x E k (lockTenant r) :=
  (keeps_reach rfl).bind fun _ => keeps_rows.bind fun _ => (keeps_orFail _ _).bind fun _ => keeps_pure _

theorem keeps_claim {operation hash : Text} : Keeps x E k (claim settings r operation hash) := by
  refine (keeps_reach rfl).bind fun _ => ?_
  refine (keeps_orFail _ _).bind fun _ => ?_
  refine keeps_rows.bind fun _ => ?_
  refine (keeps_orFail _ _).bind fun _ => ?_
  exact (keeps_setRows _).bind fun _ => keeps_pure _

theorem keeps_validateQuota {n : Nat} : Keeps x E k (validateQuota settings r n) := by
  refine (keeps_reach rfl).bind fun _ => ?_
  refine keeps_rows.bind fun _ => ?_
  dsimp only
  split
  · exact leads_throw _
  · exact keeps_pure _

theorem keeps_findDocument {documentId : DocumentId} : Keeps x E k (findDocument r documentId) :=
  (keeps_reach rfl).bind fun _ => keeps_rows.bind fun _ => keeps_orFail _ _

theorem keeps_findSource {document : Document} : Keeps x E k (findSource r document) := by
  refine (keeps_orFail _ _).bind fun _ => ?_
  refine (keeps_reach rfl).bind fun _ => ?_
  refine keeps_rows.bind fun _ => ?_
  exact (keeps_orFail _ _).bind fun _ => keeps_orFail _ _

theorem keeps_requestHash {payload : Payload} (hx : x.leaks .requestHash = false) :
    Keeps x E k (requestHash settings payload) := (keeps_reach_of hx).bind fun _ => keeps_pure _

theorem keeps_selectNextVersion {documentId : DocumentId} : Keeps x E k (selectNextVersion documentId) :=
  (keeps_reach rfl).bind fun _ => keeps_rows.bind fun _ => keeps_pure _

theorem keeps_complete {operation : Text} {response : UploadAccepted} : Keeps x E k (complete r operation response) :=
  (keeps_reach rfl).bind fun _ => keeps_rows.bind fun _ => keeps_writeRows _ _

theorem keeps_loadOrCreateDocument {r : UploadRequest} : Keeps x E k (loadOrCreateDocument r) := by
  unfold loadOrCreateDocument
  split
  · refine (keeps_reach rfl).bind fun _ => ?_
    refine keeps_rows.bind fun _ => ?_
    exact (keeps_writeRows _ _).bind fun _ => keeps_pure _
  · refine keeps_findDocument.bind fun _ => ?_
    refine keeps_rows.bind fun _ => ?_
    split
    · exact leads_throw _
    · split
      · exact leads_throw _
      · exact keeps_pure _

theorem keeps_checkCollections {r : UploadRequest} {documentId : DocumentId} :
    Keeps x E k (checkCollections r documentId) := by
  unfold checkCollections
  split
  · refine (keeps_reach rfl).bind fun _ => ?_
    refine keeps_rows.bind fun _ => ?_
    dsimp only
    split
    · split
      · exact leads_throw _
      · exact keeps_pure _
    · split
      · exact leads_throw _
      · exact keeps_pure _
  · exact keeps_pure _

theorem keeps_flushUpload {r : UploadRequest} {documentId : DocumentId} {key : StorageKey} :
    Keeps x E k (flushUpload r documentId key) :=
  (keeps_reach rfl).bind fun _ => keeps_rows.bind fun _ => keeps_writeRows _ _

theorem leads_commitSession : Leads E (Going x k) commitSession fun _ => Unraised x := by
  refine (keeps_reach rfl).bind fun _ => ?_
  exact leads_modifyState fun _ hg => hg.pending

end Exits

/-! ## The files -/

theorem get?_remove (files : Files) (path p : Path) :
    (files.remove path).get? p = if p = path then none else files.get? p := by
  simp only [Files.remove, Table.get?_delete]
  by_cases h : p = path <;> cases files.get? p <;> simp [h]

theorem OnlyAt.remove {files files' : Files} {path : Path} (h : OnlyAt files (some path) files') :
    (files'.remove path).get? = files.get? := by
  funext p
  rw [get?_remove]
  split
  · rename_i he
    exact (h.none_at p (congrArg some he.symm)).symm
  · rename_i he
    exact h.other p fun e => he (Option.some.inj e).symm

theorem onlyAt_of_eq {files files' : Files} {path : Option Path} (hnone : ∀ p, path = some p → files.get? p = none)
    (h : files'.get? = files.get?) : OnlyAt files path files' := ⟨hnone, fun p _ => congrFun h p⟩

theorem inDirectory_eq_false {files : Files} {key : StorageKey} (h : files.inDirectory key = false) :
    files.get? (.original key) = none := by
  rw [Option.eq_none_iff_forall_not_mem]
  intro content hc
  rw [Files.inDirectory, List.any_eq_false] at h
  exact h _ (Table.get?_eq_some.mp hc) (by simp)

theorem leads_of_fact {p : Prop} (h : p → Leads E P m R) : Leads E (fun w => P w ∧ p) m R := by
  intro w hw
  exact h hw.2 w hw.1

variable {u : Unicode} {tenantId : TenantId} {documentId : DocumentId} {versionId : VersionId}

/-- The file is there, and `storage_key` does not tell it yet. -/
structure Placed (x : Start) (key : StorageKey) (w : Faulted Point Failure (World Rows)) : Prop where
  storageKey : w.state.storageKey = none
  committed : w.state.committed = x.committed
  onlyAt : OnlyAt x.files (some (.original key)) w.state.files
  placed : w.state.files.get? (.original key) ≠ none
  pending : w.pending = x.fault

theorem leads_setStorageKey {key : StorageKey} : Leads E (Placed x key) (setStorageKey key) fun _ => Going x (some key) :=
  leads_modifyState fun _ hp => ⟨rfl, ⟨hp.committed, hp.onlyAt⟩, hp.pending⟩

theorem leads_name {key : StorageKey} :
    Leads E (Placed x key) (setStorageKey key >>= fun _ => pure key) fun key => Going x (some key) :=
  leads_setStorageKey.bind fun _ => leads_pure (fun key => Going x (some key)) key

theorem leads_place {g : Files → Files} {key : StorageKey}
    (h : ∀ files, OnlyAt x.files x.staged files →
      OnlyAt x.files (some (.original key)) (g files) ∧ (g files).get? (.original key) ≠ none) :
    Leads E (Going x none) (setFiles g) fun _ => Placed x key := by
  refine leads_modifyState fun w hg => ?_
  have hat := hg.undoable.2
  rw [hg.storageKey] at hat
  obtain ⟨hat', hplaced⟩ := h _ hat
  exact ⟨hg.storageKey, hg.undoable.1, hat', hplaced, hg.pending⟩

section Exits

variable [Exits x none E]

theorem keeps_discard {staged : StagedUpload} (hx : x.staged = some (.staging staged.tempPath)) :
    Keeps x E none (discard staged) := by
  refine (keeps_reach rfl).bind fun _ => ?_
  unfold removeFile setFiles
  refine leads_modifyState fun w hg => ⟨hg.storageKey, ⟨hg.undoable.1, ?_⟩, hg.pending⟩
  have hat := hg.undoable.2
  simp only [hg.storageKey, toRemove, hx] at hat ⊢
  exact onlyAt_of_eq hat.none_at hat.remove

theorem leads_makeDirectory {key : StorageKey} :
    Leads E (Going x none) (makeDirectory key) fun _ w =>
      Going x none w ∧ (x.staged ≠ some (.original key) → x.files.get? (.original key) = none) := by
  refine (keeps_reach rfl).bind fun _ => ?_
  unfold Leads
  mvcgen [getState]
  · exact Exits.of_halted _ (Going.halted ‹_›)
  · rename_i w hg hdir
    refine ⟨hg, fun hne => ?_⟩
    have hat := hg.undoable.2
    rw [hg.storageKey] at hat
    rw [← hat.other _ hne]
    exact inDirectory_eq_false (by simpa using hdir)

theorem leads_commit {staged : StagedUpload} (hx : x.staged = some (.staging staged.tempPath)) :
    Leads E (Going x none) (Ingest.commit u staged tenantId documentId versionId) fun key => Going x (some key) := by
  refine leads_makeDirectory.bind fun _ => leads_of_fact fun hnone => ?_
  replace hnone := hnone (by simp [hx])
  refine (keeps_reach rfl).bind fun _ => ?_
  refine keeps_getState.bind fun _ => ?_
  refine (keeps_orFail _ _).bind fun content => ?_
  refine (leads_place fun files hat => ?_).bind fun _ => leads_name
  rw [hx] at hat
  refine ⟨⟨fun p hp => ?_, fun p hp => ?_⟩, ?_⟩
  · cases hp
    exact hnone
  · have hne : p ≠ _ := fun e => hp (congrArg some e.symm)
    simp only [replaced, Table.get?_put, Function.update_of_ne hne]
    exact congrFun hat.remove p
  · simp [replaced]

end Exits

theorem onlyAt_put {files : Files} {key : StorageKey} {content : Bytes} (hx : x.staged = none)
    (hnone : x.files.get? (.original key) = none) (hat : OnlyAt x.files x.staged files) :
    OnlyAt x.files (some (.original key)) (files.put (.original key) content) := by
  refine ⟨fun p hp => ?_, fun p hp => ?_⟩
  · cases hp
    exact hnone
  · have hne : p ≠ .original key := fun e => hp (congrArg some e.symm)
    rw [Table.get?_put, Function.update_of_ne hne]
    exact hat.other p (by simp [hx])

theorem leads_copyFile {source key : StorageKey} (hx : x.staged = none) (hu : ∀ n, x.leaks (.copy n) = true)
    (hnone : x.files.get? (.original key) = none) :
    Leads (Stopped x) (Going x none) (copyFile source key) fun _ => Placed x key := by
  refine (keeps_reach rfl).bind fun _ => ?_
  refine keeps_getState.bind fun _ => ?_
  refine (keeps_orFail _ _).bind fun content => ?_
  have hplace : ∀ content : Bytes, Leads (Stopped x) (Going x none) (setFiles (·.put (.original key) content)) fun _ =>
      Placed x key :=
    fun content => leads_place fun files hat => ⟨onlyAt_put hx hnone hat, by simp⟩
  refine leads_get.bind fun w => leads_of_fact fun hpending => ?_
  split
  · rename_i written failure hw
    refine (hplace _).bind fun _ => ?_
    unfold Leads
    mvcgen
    rename_i w hp _
    exact .leaking (hpending ▸ hw) (hu written) rfl hp.storageKey (by simp [hx]) hnone hp.placed
  · exact hplace _

theorem leads_clone {source : StorageKey} (hx : x.staged = none) (hcopy : ∀ n, x.leaks (.copy n) = true)
    (hchmod : x.leaks .chmod = true) :
    Leads (Stopped x) (Going x none) (clone source tenantId documentId versionId) fun key => Going x (some key) := by
  refine leads_makeDirectory.bind fun _ => leads_of_fact fun hnone => ?_
  replace hnone := hnone (by simp [hx])
  refine (leads_copyFile hx hcopy hnone).bind fun _ => ?_
  refine Leads.bind ?_ fun _ => leads_name
  unfold Leads
  mvcgen [reach]
  rename_i w hp f hf hpoint
  exact .leaking (hp.pending ▸ hf) (hpoint ▸ hchmod) rfl hp.storageKey (by simp [hx]) hnone hp.placed

/-! ## The handlers -/

/-- The committed rows and the files are those of before. -/
def Restored (x : Start) (w : World Rows) : Prop := w.committed = x.committed ∧ w.files.get? = x.files.get?

/-- The request is undone unless its exception was raised behind a file that stays. -/
def Undone (x : Start) (w : Faulted Point Failure (World Rows)) : Prop :=
  Restored x w.state ↔ ¬∃ f, x.fault = some f ∧ x.leaks f.point = true ∧ w.pending = none

theorem leads_storeUpload {r : UploadRequest} (hx : x.staged = some (.staging r.staged.tempPath)) :
    Leads (Stopped x) (Going x none) (storeUpload settings r) fun _ => Unraised x := by
  refine keeps_validateQuota.bind fun _ => ?_
  refine keeps_loadOrCreateDocument.bind fun documentId => ?_
  refine keeps_checkCollections.bind fun _ => ?_
  refine keeps_selectNextVersion.bind fun _ => ?_
  refine (leads_commit hx).bind fun key => ?_
  refine keeps_flushUpload.bind fun _ => ?_
  refine keeps_complete.bind fun _ => ?_
  exact leads_commitSession.bind fun _ => leads_pure (fun _ => Unraised x) _

theorem leads_acceptUpload {r : UploadRequest} {hash : Text} (hx : x.staged = some (.staging r.staged.tempPath)) :
    Leads (Stopped x) (Going x none) (acceptUpload settings r hash) fun _ => Unraised x := by
  refine keeps_lockTenant.bind fun _ => ?_
  refine keeps_claim.bind fun result => ?_
  have hdiscard : ∀ m : RequestHandler UploadAccepted, Leads (Stopped x) (Going x none) m (fun _ => Unraised x) →
      Leads (Stopped x) (Going x none) (do rollback; discard r.staged; m) fun _ => Unraised x :=
    fun m hm => keeps_rollback.bind fun _ => (keeps_discard hx).bind fun _ => hm
  split
  · exact hdiscard _ (leads_unraised (keeps_orFail _ _))
  · exact hdiscard _ (leads_throw _)
  · exact hdiscard _ (leads_throw _)
  · exact leads_storeUpload hx
  · exact leads_storeUpload hx

def filesAfter (staged : Option Path) (w : World Rows) : Files :=
  match toRemove staged w.storageKey with
  | some path => w.files.remove path
  | none => w.files

theorem filesAfter_of_some {staged : Option Path} {w : World Rows} {key : StorageKey} (h : w.storageKey = some key) :
    filesAfter staged w = w.files.remove (.original key) := by
  simp only [filesAfter, toRemove, h]

theorem filesAfter_of_none {path : Path} {w : World Rows} (h : w.storageKey = none) :
    filesAfter (some path) w = w.files.remove path := by
  simp only [filesAfter, toRemove, h]

theorem filesAfter_of_nothing {w : World Rows} (h : w.storageKey = none) : filesAfter none w = w.files := by
  simp only [filesAfter, toRemove, h]

theorem Stopped.undone {w w' : Faulted Point Failure (World Rows)} (h : Stopped x w)
    (hc : w'.state.committed = w.state.committed) (hf : w'.state.files = filesAfter x.staged w.state)
    (hp : w'.pending = w.pending) : Undone x w' := by
  unfold Undone
  rw [hp]
  cases h with
  | halted h =>
      refine iff_of_true ⟨hc.trans h.undoable.1, ?_⟩ ?_
      · rw [hf, filesAfter]
        have hat := h.undoable.2
        split
        · rename_i path he
          rw [he] at hat
          exact hat.remove
        · rename_i he
          rw [he] at hat
          exact funext fun p => hat.other p (by simp)
      · rintro ⟨f, hfault, hu, hnone⟩
        rcases h.pending with he | ⟨f', hfault', hu'⟩
        · rw [hnone, hfault] at he
          cases he
        · rw [hfault] at hfault'
          cases hfault'
          rw [hu] at hu'
          cases hu'
  | @leaking f path hfault hu hpending hk hstaged hnone hsome =>
      refine iff_of_false (fun hr => hsome ?_) (not_not.mpr ⟨f, hfault, hu, hpending⟩)
      rw [← hnone, ← hr.2, hf, filesAfter, hk, toRemove]
      split
      · rename_i staged he
        rw [get?_remove, if_neg]
        rintro rfl
        exact hstaged he
      · rfl

/-- What undoes a request does not raise. -/
def Undoes (x : Start) (m : RequestHandler Unit) : Prop :=
  ⦃fun w => ⌜Stopped x w⌝⦄ m ⦃post⟨fun _ w => ⌜Undone x w⌝, fun _ _ => ⌜False⌝⟩⦄

theorem Undoes.tryCatch {m : RequestHandler UploadAccepted} {undo : RequestHandler Unit} {g : Failure → Failure}
    (hm : Leads (Stopped x) P m fun _ => Unraised x) (hu : Undoes x undo) :
    Leads (Undone x) P (try m catch e => do undo; throw (g e)) fun _ => Unraised x := by
  unfold Leads Undoes at *
  mvcgen [hm, hu]
  exact id

theorem undoes_undoUpload {staged : StagedUpload} (hx : x.staged = some (.staging staged.tempPath)) :
    Undoes x (undoUpload staged) := by
  unfold Undoes
  mvcgen [undoUpload, undoRows, getState, removeFile, setFiles, modifyState]
  · rename_i w hw _ key hk _
    exact hw.undone rfl (filesAfter_of_some hk).symm rfl
  · rename_i w hw _ hk _
    exact hw.undone rfl (hx ▸ (filesAfter_of_none hk).symm) rfl

theorem undoes_undoReindex (hx : x.staged = none) : Undoes x undoReindex := by
  unfold Undoes
  mvcgen [undoReindex, undoRows, getState, removeFile, setFiles, modifyState]
  · rename_i w hw _ key hk _
    exact hw.undone rfl (filesAfter_of_some hk).symm rfl
  · rename_i w hw _ hk
    exact hw.undone rfl (hx ▸ (filesAfter_of_nothing hk).symm) rfl

/-- An upload that raises. The staged file stays when the hash of the request is not computed. -/
theorem leads_uploadDocument {r : UploadRequest} (hx : x.staged = some (.staging r.staged.tempPath))
    (hhash : x.leaks .requestHash = true) (hstaged : x.files.get? (.staging r.staged.tempPath) = none) :
    Leads (Undone x) (fun w => Going x none w ∧ w.state.files.get? (.staging r.staged.tempPath) ≠ none)
      (uploadDocument settings r) fun _ => Unraised x := by
  refine Leads.bind (R := fun _ => Going x none) ?_ fun hash => (undoes_undoUpload hx).tryCatch (leads_acceptUpload hx)
  unfold Leads
  mvcgen [requestHash, reach]
  · rename_i w hw f hf hpoint
    refine iff_of_false (fun hr => hw.2 ?_) (not_not.mpr ⟨f, hw.1.pending ▸ hf, hpoint ▸ hhash, rfl⟩)
    rw [hr.2]
    exact hstaged
  · exact And.left ‹_›
  · exact And.left ‹_›

theorem leads_acceptReindex {r : ReindexRequest} {source : VersionFile} {version : Nat} (hx : x.staged = none)
    (hcopy : ∀ n, x.leaks (.copy n) = true) (hchmod : x.leaks .chmod = true) :
    Leads (Stopped x) (Going x none) (acceptReindex r source version) fun _ => Unraised x := by
  refine (leads_clone hx hcopy hchmod).bind fun key => ?_
  refine (keeps_reach rfl).bind fun _ => ?_
  refine keeps_rows.bind fun _ => ?_
  refine (keeps_writeRows _ _).bind fun _ => ?_
  refine keeps_complete.bind fun _ => ?_
  exact leads_commitSession.bind fun _ => leads_pure (fun _ => Unraised x) _

/-- A reindexing that raises. A copy stays whose path `storage_key` does not tell. -/
theorem leads_reindexDocument {r : ReindexRequest} (hx : x.staged = none) (hhash : x.leaks .requestHash = false)
    (hcopy : ∀ n, x.leaks (.copy n) = true) (hchmod : x.leaks .chmod = true) :
    Leads (Undone x) (Going x none) (reindexDocument settings r) fun _ => Unraised x := by
  have : Exits x none (Undone x) :=
    ⟨fun w h => (Stopped.halted h).undone rfl (hx ▸ (filesAfter_of_nothing h.storageKey).symm) rfl⟩
  refine keeps_lockTenant.bind fun _ => ?_
  refine keeps_findDocument.bind fun _ => ?_
  refine keeps_findSource.bind fun source => ?_
  refine (keeps_requestHash hhash).bind fun _ => ?_
  refine keeps_claim.bind fun result => ?_
  have hstore : Leads (Undone x) (Going x none) (do
      validateQuota settings r.toRequest source.fileSizeBytes
      let version ← selectNextVersion r.documentId
      try acceptReindex r source version catch e => do undoReindex; throw e) fun _ => Unraised x :=
    keeps_validateQuota.bind fun _ => keeps_selectNextVersion.bind fun _ =>
      (undoes_undoReindex hx).tryCatch (g := id) (leads_acceptReindex hx hcopy hchmod)
  split
  · exact keeps_rollback.bind fun _ => leads_unraised (keeps_orFail _ _)
  · exact keeps_rollback.bind fun _ => leads_throw _
  · exact keeps_rollback.bind fun _ => leads_throw _
  · exact hstore
  · exact hstore

end Etoeragcb.Documents

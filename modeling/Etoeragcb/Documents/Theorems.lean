import Etoeragcb.Documents.Lemmas.Quota
import Etoeragcb.Documents.Lemmas.Routes
import Etoeragcb.Documents.Lemmas.Tokens
import Etoeragcb.Ingest.Theorems

/-!
# Main theorems on uploads, reindexing, the quota and signed files
-/

namespace Etoeragcb.Documents

open Lib Models Ingest Etoeragcb.Core

inductive Call
  | upload (r : UploadRequest) (content : Bytes)
  | reindex (r : ReindexRequest)

namespace Call

/-- No file is there under the path of the temporary file. -/
def Fresh (files : Files) : Call → Prop
  | .upload r _ => files.get? (.staging r.staged.tempPath) = none
  | .reindex _ => True

/-- The world that the handler begins in: behind `stage_upload` for an upload. -/
def begin (committed : Rows) (files : Files) : Call → World Rows
  | .upload r content => ⟨committed, committed, files.put (.staging r.staged.tempPath) content, none⟩
  | .reindex _ => ⟨committed, committed, files, none⟩

def handle (settings : Settings) : Call → RequestHandler UploadAccepted
  | .upload r _ => uploadDocument settings r
  | .reindex r => reindexDocument settings r

/-- The operations that no `except` clause makes up for: the hash of an upload is computed in front of the `try`, and
`storage_key` is assigned behind the copy and the `chmod`. -/
def leaks : Call → Point → Bool
  | .upload _ _, .requestHash | .reindex _, .copy _ | .reindex _, .chmod => true
  | _, _ => false

end Call

/-- The run of a call on its world, with the exception that one of its operations raises. -/
def Call.run (settings : Settings) (call : Call) (committed : Rows) (files : Files)
    (fault : Option (Fault Point Failure)) : Except Failure UploadAccepted × Faulted Point Failure (World Rows) :=
  call.handle settings ⟨call.begin committed files, fault⟩

/-- The committed rows and the files are those of before the call. -/
def SameState (committed : Rows) (files : Files) (w : World Rows) : Prop :=
  w.committed = committed ∧ w.files.get? = files.get?

/-- The operation that raised was one that no `except` clause makes up for. -/
def Call.Leaked (call : Call) (fault : Option (Fault Point Failure)) (w : Faulted Point Failure (World Rows)) : Prop :=
  ∃ f, fault = some f ∧ call.leaks f.point = true ∧ w.pending = none

section Restored

variable {settings : Settings} {call : Call} {committed : Rows} {files : Files} {fault : Option (Fault Point Failure)}

def Call.start (call : Call) (committed : Rows) (files : Files) (fault : Option (Fault Point Failure)) : Start where
  committed := committed
  files := files
  staged := match call with
    | .upload r _ => some (.staging r.staged.tempPath)
    | .reindex _ => none
  fault := fault
  leaks := call.leaks
  leaks_usual p hp := by
    cases call <;> cases p <;> first | rfl | cases hp

theorem going_begin (hfresh : call.Fresh files) :
    Going (call.start committed files fault) none ⟨call.begin committed files, fault⟩ := by
  cases call with
  | upload r content =>
      refine ⟨rfl, ⟨rfl, fun p hp => ?_, fun p hp => ?_⟩, rfl⟩
      · cases hp
        exact hfresh
      · have hne : p ≠ .staging r.staged.tempPath := fun e => hp (congrArg some e.symm)
        simp only [Call.begin, Table.get?_put, Function.update_of_ne hne]
        rfl
  | reindex r => exact ⟨rfl, ⟨rfl, fun _ hp => (by cases hp), fun _ _ => rfl⟩, rfl⟩

theorem undone_handle (hfresh : call.Fresh files) {result : Except Failure UploadAccepted}
    {w : Faulted Point Failure (World Rows)} (hrun : call.run settings committed files fault = (result, w)) :
    (∀ a, result = .ok a → Unraised (call.start committed files fault) w) ∧
      ∀ e, result = .error e → Undone (call.start committed files fault) w := by
  have hg : Going (call.start committed files fault) none ⟨call.begin committed files, fault⟩ := going_begin hfresh
  cases call with
  | upload r content =>
      have hput : (files.put (.staging r.staged.tempPath) content).get? (.staging r.staged.tempPath) ≠ none := by simp
      have hleads := @leads_uploadDocument ((Call.upload r content).start committed files fault) settings r rfl rfl hfresh
      have h := run_of_triple hleads ⟨hg, hput⟩
      exact ⟨fun a ha => h.1 a w (ha ▸ hrun), fun e he => h.2 e w (he ▸ hrun)⟩
  | reindex r =>
      have hleads := @leads_reindexDocument ((Call.reindex r).start committed files fault) settings r rfl rfl (fun _ => rfl) rfl
      have h := run_of_triple hleads hg
      exact ⟨fun a ha => h.1 a w (ha ▸ hrun), fun e he => h.2 e w (he ▸ hrun)⟩

end Restored

/-! ## A copy that is not finished -/

def storedContent : Db where
  tenants := ⟨[(1, ⟨some 5, 1⟩)], by decide⟩
  collections := .empty
  documents := ⟨[(7, ⟨1, "Manual".toList, "manual.txt".toList, some 70, none⟩)], by decide⟩
  versions := ⟨[(70, ⟨1, 7, 1, .active, 1, 0, 0, some 5, none, none, 0, some 3, none⟩)], by decide⟩
  sections := .empty
  chunks := .empty
  generations := ⟨[(5, ⟨1, "document_activated", some 70, none, .active, 1, some 3⟩)], by decide⟩
  generationDocuments := ⟨[((5, 7), ⟨1, 70⟩)], by decide⟩
  jobs := ⟨[(700, ⟨1, 70, .succeeded, 1, some 2, none⟩)], by decide⟩
  documentCollections := .empty

def storedKey : StorageKey := ⟨1, 7, 70, "original.txt".toList⟩

def storedRows : Rows where
  content := storedContent
  mimes := ⟨[(7, "text/plain".toList)], by decide⟩
  versionFiles := ⟨[(70, ⟨1, "5f70bf18".toList, 4, storedKey⟩)], by decide⟩
  records := .empty

def storedFiles : Files := ⟨[(.original storedKey, [104, 101, 97, 116])], by decide⟩

def testSettings : Settings where
  unicode := .latin
  canonicalRequestHash
    | .upload title .. => 'u' :: title
    | .reindex _ => ['r']
  idempotencyTtl := 86400000000
  quotaBytes := 1000

def reindexCall : Call := .reindex ⟨⟨1, 2, "reindex-0001".toList, 10, 8, 71, 701⟩, 7⟩

/-- The disk is full behind two bytes of the copy. -/
def copyFault : Fault Point Failure := ⟨.copy 2, .osError⟩

theorem not_sameState : ¬∀ settings (call : Call) committed files fault result w, call.Fresh files →
    call.run settings committed files fault = (result, w) → ((∃ e, result = .error e) ∨ w.pending ≠ fault) →
    SameState committed files w.state := by
  intro hall
  have hfile : (reindexCall.run testSettings storedRows storedFiles (some copyFault)).2.state.files.get?
      (.original ⟨1, 7, 71, "original.txt".toList⟩) = some [104, 101] := by decide
  have herror : (reindexCall.run testSettings storedRows storedFiles (some copyFault)).1 = .error .osError := by rfl
  generalize hrun : reindexCall.run testSettings storedRows storedFiles (some copyFault) = run at hfile herror
  obtain ⟨result, w⟩ := run
  have hsame := hall testSettings reindexCall storedRows storedFiles (some copyFault) result w trivial hrun
    (Or.inl ⟨_, herror⟩)
  rw [hsame.2] at hfile
  exact absurd hfile (by decide)

/-- A call in which an operation raises leaves the committed rows and the files as they were, unless the operation is
one that no `except` clause makes up for. -/
theorem sameState_iff {settings : Settings} {call : Call} {committed : Rows} {files : Files}
    {fault : Option (Fault Point Failure)} (hfresh : call.Fresh files) {result : Except Failure UploadAccepted}
    {w : Faulted Point Failure (World Rows)} (hrun : call.run settings committed files fault = (result, w))
    (hraised : (∃ e, result = .error e) ∨ w.pending ≠ fault) :
    SameState committed files w.state ↔ ¬call.Leaked fault w := by
  obtain ⟨hok, herror⟩ := undone_handle hfresh hrun
  cases result with
  | ok a =>
      rcases hraised with ⟨e, he⟩ | hne
      · cases he
      · exact absurd (hok a rfl) hne
  | error e =>
      exact herror e rfl

def uploadCall : Call :=
  .upload ⟨⟨1, 2, "upload-0001".toList, 10, 8, 71, 701⟩, "Manual".toList, some 7, [],
    ⟨"upload-a1".toList, "manual.txt".toList, "text/plain".toList, "9c22ff5f".toList, 5⟩⟩ [99, 111, 108, 100, 115]

theorem sameState_commit : ∃ result w,
    uploadCall.run testSettings storedRows storedFiles (some ⟨.commit, .other⟩) = (result, w) ∧ w.pending = none ∧
      (∃ key, w.state.storageKey = some key) ∧ SameState storedRows storedFiles w.state := by
  have herror : (uploadCall.run testSettings storedRows storedFiles (some ⟨.commit, .other⟩)).1 = .error .other := by rfl
  have hpending : (uploadCall.run testSettings storedRows storedFiles (some ⟨.commit, .other⟩)).2.pending.isNone := by decide
  have hkey : (uploadCall.run testSettings storedRows storedFiles (some ⟨.commit, .other⟩)).2.state.storageKey.isSome := by
    decide
  generalize hrun : uploadCall.run testSettings storedRows storedFiles (some ⟨.commit, .other⟩) = run at *
  obtain ⟨result, w⟩ := run
  refine ⟨result, w, rfl, Option.isNone_iff_eq_none.mp hpending, Option.isSome_iff_exists.mp hkey, ?_⟩
  have hfresh : uploadCall.Fresh storedFiles := by
    show storedFiles.get? _ = none
    decide
  refine (sameState_iff hfresh hrun (Or.inl ⟨_, herror⟩)).mpr ?_
  rintro ⟨f, hf, hleaks, -⟩
  cases hf
  cases hleaks

/-! ## The quota -/

section Quota

def smallLimits : Limits := ⟨100, 60⟩

def failedUpload : List DepotAction :=
  [.request (.upload 1 7 [] [] [] 70 700 0) 60, .other (.ingest (.start 0 700 1)), .other (.ingest (.fault 0 700 "timeout")),
    .other (.ingest (.markFailed 0 2))]

def collectFailed : List DepotAction := failedUpload ++ [.other (.select 1 1 none), .other (.deletePayloads 0)]

theorem not_quotaKept : ¬∀ l timeout tenants s, Run (depotStep l timeout) (fun _ _ => True)
    (.fresh tenants) s → QuotaKept l s := by
  intro hall
  have hrun : (exec (depotStep smallLimits 60) (fun _ _ => True) (.fresh oneTenant) collectFailed).map (fun s =>
      (s.used 1, s.stored 1)) = some (60, 0) := by decide +kernel
  obtain ⟨s, hs, he⟩ := Option.map_eq_some_iff.mp hrun
  obtain ⟨hused, hstored⟩ := Prod.mk.inj he
  have hfull : s.exceeds smallLimits 1 60 = true := by
    rw [Depot.exceeds, hused]
    rfl
  have hreal := (hall smallLimits 60 oneTenant s (Run.of_exec hs)).rejected 1 60 (.upload 60 (le_refl 60) hfull)
  rw [hstored] at hreal
  exact absurd hreal (by decide)

/-- The quota bounds the stored bytes, and rejects what does not fit only, if and only if no file of a tenant is missing
or its rows leave room for every upload. -/
theorem quotaKept_iff {l : Limits} {timeout : Nat} {tenants : Table TenantId Tenant} {s : Depot}
    (h : Run (depotStep l timeout) (fun _ _ => True) (.fresh tenants) s) :
    QuotaKept l s ↔ ∀ t, FilesThere s t ∨ s.used t + l.maxBytes ≤ l.quotaBytes := by
  have hcounted := counted_of_run h
  refine ⟨fun hk t => (rejected_iff hcounted t).mp (hk.rejected t), fun hall => ⟨fun v hv => ?_, fun t => ?_, fun t =>
    (rejected_iff hcounted t).mpr (hall t)⟩⟩
  · obtain ⟨t, ht⟩ := Option.isSome_iff_exists.mp (hcounted.owned v hv)
    obtain ⟨row, hrow, -⟩ := Table.view_eq_some.mp ht
    exact Option.isSome_iff_exists.mpr ⟨row, hrow⟩
  · exact (stored_le_used s t).trans (hcounted.within t)

theorem quotaKept_iff_failed : ∃ s, exec (depotStep smallLimits 60) (fun _ _ => True)
    (.fresh oneTenant) failedUpload = some s ∧
    s.used 1 = 60 ∧ (QuotaKept smallLimits s ↔ ∀ t, FilesThere s t ∨ s.used t + 60 ≤ 100) := by
  have hrun : (exec (depotStep smallLimits 60) (fun _ _ => True) (.fresh oneTenant) failedUpload).map (·.used 1) =
      some 60 := by decide +kernel
  obtain ⟨s, hs, hused⟩ := Option.map_eq_some_iff.mp hrun
  exact ⟨s, hs, hused, quotaKept_iff (Run.of_exec hs)⟩

end Quota

/-! ## Tokens of signed files -/

section Tokens

variable {h : Hmac} {c : Conversions} {s : FileTokenSigner} {token : Str} {now : Time}

def constantHmac : Hmac := ⟨fun _ _ => List.replicate 32 0, fun _ _ => List.length_replicate⟩

def plainConversions : Conversions where
  uuid
    | .str s => UUID.ofText s
    | _ => none
  int
    | .int n => some n
    | _ => none
  isOne
    | .int n => n == 1
    | _ => false
  uuid_text := UUID.ofText_text
  int_int _ := rfl
  one := rfl

/-- A letter that is not ASCII stands where the code should. -/
def accentedToken : Str := Str.ofText ".é".toList

theorem not_honours : ¬∀ (h : Hmac) (c : Conversions) (s : FileTokenSigner) token now, s.Unforged h token →
    s.Honours h c token now := by
  intro hall
  have hunforged : (⟨[], 60⟩ : FileTokenSigner).Unforged constantHmac accentedToken := by
    intro encoded he
    have hsize := congrArg List.length he
    have hcode : (FileTokenSigner.signature constantHmac ⟨[], 60⟩ encoded).length = 43 :=
      show (b64encode (List.replicate 32 0)).length = 43 by decide
    have htwo : accentedToken.length = 2 := by decide
    rw [htwo, Str.ofText, List.length_map, List.length_append, List.length_cons, hcode] at hsize
    omega
  have hclean := verify_total_iff.mp (hall constantHmac plainConversions ⟨[], 60⟩ accentedToken 0 hunforged).total
  exact absurd hclean (by decide)

/-- A token is answered with its payload if and only if it was issued and has not expired, and else with a token error,
unless its parts cannot be compared. -/
theorem honours_iff (hu : s.Unforged h token) : s.Honours h c token now ↔ uncomparable token = false := by
  refine ⟨fun hh => verify_total_iff.mp hh.total, fun hclean => ⟨verify_total_iff.mpr hclean, fun p => ⟨fun hv => ?_, ?_⟩⟩⟩
  · obtain ⟨text, htoken, hread, hlater⟩ := verify_eq_ok hv
    refine ⟨?_, hlater⟩
    have hauth := hu text htoken
    generalize hm : tokenMessage text = message at hauth
    cases hauth with
    | storage => exact absurd hm (tokenMessage_ne_storageMessage _ _ _ _ _ _)
    | token issuer hs r t e hi =>
        obtain ⟨⟨hp, -, -⟩, ht, -⟩ := issue_eq_ok.mp hi
        have htext := tokenMessage_injective hm
        rw [htext, read_encodedPayload c hp] at hread
        refine ⟨issuer, r, t, e, hs, hi, ?_, (Option.some.inj hread).symm⟩
        rw [htoken, htext, ht, signature_eq hs]
  · rintro ⟨⟨issuer, r, t, e, hs, hi, rfl, rfl⟩, hlater⟩
    rw [verify_issued hs hi, if_neg (not_le.mpr hlater)]

def sampleUuid : UUID := ⟨7, by decide⟩

def sampleRequest : IssueRequest where
  tenantId := sampleUuid
  userId := sampleUuid
  documentId := sampleUuid
  version := ⟨sampleUuid, List.replicate 64 'a', "original.txt".toList⟩
  page := some 2
  now := 10000000
  random := List.replicate 18 0
  length_random := List.length_replicate

theorem honours_iff_issued : ∃ t e, FileTokenSigner.issue constantHmac ⟨[], 60⟩ sampleRequest = .ok (t, e) ∧
    (FileTokenSigner.Honours constantHmac plainConversions ⟨[], 60⟩ (Str.ofText t) 20000000 ↔ uncomparable (Str.ofText t) = false) := by
  have hvalid : (FileTokenSigner.payload constantHmac ⟨[], 60⟩ sampleRequest).valid = true := by decide +kernel
  have hissue := issue_eq_ok.mpr ⟨⟨hvalid, by decide, by decide⟩, rfl, rfl⟩
  exact ⟨_, _, hissue, honours_iff (unforged_issued hissue)⟩

end Tokens

end Etoeragcb.Documents

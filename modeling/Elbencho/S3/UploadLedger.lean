import Elbencho.S3.UploadStore

/-!
# The account of a shared object

Every part of a shared object is at one place: in the ranges of a worker, in its batch, in the map,
in the list of the worker that completes the upload, or in a completion request.  Only failures lose
parts, and no step makes one.

`Ledger` is the account of the parts of one object, and **`Ledger.of_step`** is that every step
keeps it, whatever happens with other objects.  So the list is taken out of the map only when it has
all parts: the parts that are not in the map would have no bytes.
-/

namespace Elbencho

open Transition Parties

/-! ## Parts with all bytes -/

theorem Consecutive.pos {parts : List Part} {m a : ℕ} (h : Consecutive m a parts) :
    ∀ p ∈ parts, 0 < p.blockSize := by
  induction parts generalizing m a with
  | nil => simp
  | cons q parts ih => exact List.forall_mem_cons.mpr ⟨h.2.2.1, ih h.2.2.2⟩

/-- **Parts with as many bytes as the whole are the whole.** -/
theorem perm_of_totalSize_le {parts whole : List Part} (hcount : ∀ q, parts.count q ≤ whole.count q)
    (hpos : ∀ p ∈ whole, 0 < p.blockSize) : totalSize parts ≤ totalSize whole ∧
      (totalSize whole ≤ totalSize parts → parts.Perm whole) := by
  have hperm : (parts ++ whole.diff parts).Perm whole :=
    List.subperm_append_diff_self_of_count_le fun q _ => hcount q
  generalize whole.diff parts = rest at hperm
  have hsum : totalSize (parts ++ rest) = totalSize whole := (hperm.map _).sum_eq
  rw [totalSize_append] at hsum
  refine ⟨by omega, fun hle => ?_⟩
  cases rest with
  | nil => rwa [List.append_nil] at hperm
  | cons p rest =>
    have hp := hpos p (hperm.subset (by simp))
    rw [totalSize_cons] at hsum
    omega

/-! ## Where the parts are -/

section Places

variable (args : UploadArgs) (name : String)

/-- The parts in the ranges of a list. -/
def todoCount (todo : List PathStoreElem) (q : Part) : ℕ :=
  (todo.map fun e => if e.path = name then (args.entryParts e).count q else 0).sum

/-- The parts that a worker has to upload. -/
@[simp] def Uploader.pending : Uploader → Part → ℕ
  | .iterating todo, q => todoCount args name todo q
  | .uploading u todo, q => todoCount args name todo q +
      if u.elem.path = name then u.left.count q + u.batch.count (q, false) else 0
  | .completing _ _ _ todo, q => todoCount args name todo q
  | _, _ => 0

/-- The parts that a worker has uploaded and not handled. -/
@[simp] def Uploader.answered : Uploader → Part → ℕ
  | .uploading u _, q => if u.elem.path = name then u.batch.count (q, true) else 0
  | _, _ => 0

/-- The parts in the list that a worker got from the map. -/
@[simp] def Uploader.listed : Uploader → Part → ℕ
  | .uploading u _, q => if u.elem.path = name then (u.allCompletedParts.getD []).count q else 0
  | .completing object _ parts _, q => if object = name then parts.count q else 0
  | _, _ => 0

@[simp] def Uploader.uploaded (x : Uploader) (q : Part) : ℕ := x.answered name q + x.listed name q

/-- The parts for the upload that a worker takes part in. -/
@[simp] def Uploader.active : Uploader → Part → ℕ
  | .uploading u _, q => if u.elem.path = name then
      u.left.count q + u.batch.count (q, false) + u.batch.count (q, true) else 0
  | _, _ => 0

/-- A worker had an error. -/
def Uploader.Failed : Uploader → Prop
  | .cleaning _ => True
  | .terminated failed => failed = true
  | _ => False

def S3UploadMap.parts (map : S3UploadMap) : List Part :=
  ((map.lookup name).map S3UploadElem.completedParts).getD []

/-- The parts that were uploaded. -/
def uploadedParts (requests : List S3Request) : List Part :=
  requests.filterMap fun
    | .uploadPart object _ p => if object = name then some p else none
    | _ => none

/-- The lists of the completion requests. -/
def completedLists (requests : List S3Request) : List (List Part) :=
  requests.filterMap fun
    | .completeMultipartUpload object _ parts => if object = name then some parts else none
    | _ => none

/-- The parts in the map and in completion requests. -/
def keptCount (map : S3UploadMap) (requests : List S3Request) (q : Part) : ℕ :=
  (map.parts name).count q + (completedLists name requests).flatten.count q

end Places

/-! ## The account -/

section Account

variable {n : ℕ} (args : UploadArgs) (name : String) (whole : List Part)

/-- The entries of the object in a list are shared, and their size is known. -/
def TodoOk (todo : List PathStoreElem) : Prop :=
  ∀ e ∈ todo, e.path = name → e.Shared ∧ e.totalLen = totalSize whole

/-- The object was assigned to the workers in ranges: what its parts are, in their order. -/
structure Assigned (lists : Fin n → List PathStoreElem) : Prop where
  completes : args.s3NoMpuCompletion = false
  fails_on_404 : args.s3IgnoreMultipartUpload404 = false
  ne_nil : whole ≠ []
  consecutive : Consecutive 1 0 whole
  size_lt : totalSize whole < Word64.size
  sum_todo : ∀ q, ∑ w, todoCount args name (lists w) q = whole.count q
  entries : ∀ w, TodoOk name whole (lists w)

/-- What a worker knows of the object. -/
def Uploader.Ok : Uploader → Prop
  | .iterating todo => TodoOk name whole todo
  | .uploading u todo => TodoOk name whole todo ∧ (u.elem.path = name →
      u.elem.totalLen = totalSize whole ∧ ∀ list ∈ u.allCompletedParts, list.Perm whole)
  | .completing object _ list todo => TodoOk name whole todo ∧ (object = name → list = whole)
  | _ => True

/-- The bytes of an entry of the map are counted, and some are missing. -/
def S3UploadElem.Ok (elem : S3UploadElem) : Prop :=
  elem.numBytesDone = totalSize elem.completedParts ∧ elem.numBytesDone < totalSize whole

/-- The upload is in the map as long as a worker has parts for it. -/
def UploadRun.Open (s : UploadRun n) : Prop :=
  s.map.lookup name = none → ∀ q, ∑ w, (s.worker w).active name q = 0

/-- **The account of the object.**  No part is uploaded twice, what is in the map has been uploaded,
and no part is lost unless a worker has an error. -/
structure Ledger (s : UploadRun n) : Prop where
  sent_le : ∀ q, ∑ w, (s.worker w).pending args name q + (uploadedParts name s.requests).count q ≤
    whole.count q
  le_sent : ∀ q, ∑ w, (s.worker w).uploaded name q + keptCount name s.map s.requests q ≤
    (uploadedParts name s.requests).count q
  worker : ∀ w, (s.worker w).Ok name whole
  entry : ∀ elem ∈ s.map.lookup name, elem.Ok whole
  completed : ∀ list ∈ completedLists name s.requests, list = whole
  lossless : (∀ w, ¬(s.worker w).Failed) → s.Open name ∧ ∀ q, whole.count q ≤
    ∑ w, (s.worker w).pending args name q + ∑ w, (s.worker w).uploaded name q +
      keptCount name s.map s.requests q

end Account

theorem mem_lookup_of_erase {map : S3UploadMap} {k name : String} {elem : S3UploadElem}
    (h : elem ∈ (map.erase k).lookup name) : elem ∈ map.lookup name := by
  by_cases hk : name = k
  · rw [hk, AList.lookup_erase] at h
    cases h
  · rwa [AList.lookup_erase_ne hk] at h

namespace Ledger

variable {n : ℕ} {args : UploadArgs} {name : String} {whole : List Part}
  {lists : Fin n → List PathStoreElem} {s s' : UploadRun n} {w : Fin n} {x y : Uploader}
  {map : S3UploadMap} {requests : List S3Request} {u : SharedUpload} {todo : List PathStoreElem}
  {p : Part} {batch : List (Part × Bool)} {elem : S3UploadElem}

theorem ok (h : Ledger args name whole s) (hw : s.worker w = y) : y.Ok name whole :=
  hw ▸ h.worker w

/-- **One worker moves.**  What it has, with the map and the requests, does not get more, and not
less unless it has an error. -/
theorem move (h : Ledger args name whole s) (hw : s.worker w = y)
    (hpending : ∀ q, x.pending args name q + (uploadedParts name requests).count q ≤
      y.pending args name q + (uploadedParts name s.requests).count q)
    (huploaded : ∀ q, x.uploaded name q + keptCount name map requests q +
        (uploadedParts name s.requests).count q ≤
      y.uploaded name q + keptCount name s.map s.requests q + (uploadedParts name requests).count q)
    (hx : x.Ok name whole) (hentry : ∀ elem ∈ map.lookup name, elem.Ok whole)
    (hnew : ∀ list ∈ completedLists name requests, list = whole)
    (hfine : ¬x.Failed → ¬y.Failed ∧ (s.Open name →
      (∀ q, y.pending args name q + y.uploaded name q + keptCount name s.map s.requests q ≤
        x.pending args name q + x.uploaded name q + keptCount name map requests q) ∧
      ((∀ q, ∑ v, (Function.update s.worker w x v).pending args name q +
        ∑ v, (Function.update s.worker w x v).uploaded name q ≤ whole.count q) →
        UploadRun.Open name ⟨map, requests, Function.update s.worker w x⟩))) :
    Ledger args name whole ⟨map, requests, Function.update s.worker w x⟩ := by
  have hsum (q : Part) := sum_update_add (fun _ x => Uploader.pending args name x q) s.worker w x
  have hsum' (q : Part) := sum_update_add (fun _ x => Uploader.uploaded name x q) s.worker w x
  simp only [hw] at hsum hsum'
  have hsent (q : Part) : ∑ v, (Function.update s.worker w x v).pending args name q +
      (uploadedParts name requests).count q ≤ whole.count q := by
    have hold := h.sent_le q
    have hle := hpending q
    have hq := hsum q
    omega
  have hkept (q : Part) : ∑ v, (Function.update s.worker w x v).uploaded name q +
      keptCount name map requests q ≤ (uploadedParts name requests).count q := by
    have hold := h.le_sent q
    have hle := huploaded q
    have hq := hsum' q
    omega
  refine ⟨hsent, hkept, (Function.forall_update_iff s.worker fun _ x => x.Ok name whole).mpr
    ⟨hx, fun v _ => h.worker v⟩, hentry, hnew, fun hall => ?_⟩
  obtain ⟨hx, hothers⟩ := (Function.forall_update_iff s.worker fun _ x => ¬x.Failed).mp hall
  obtain ⟨hy, hopen⟩ := hfine hx
  obtain ⟨hold, hcount⟩ := h.lossless fun v =>
    if hv : v = w then hv ▸ hw.symm ▸ hy else hothers v hv
  refine ⟨(hopen hold).2 fun q => ?_, fun q => ?_⟩
  · have hq := hsent q
    have hq' := hkept q
    omega
  · have hle := (hopen hold).1 q
    have hle' := hcount q
    have hq := hsum q
    have hq' := hsum' q
    dsimp only
    omega

/-- The parts for the upload stay. -/
theorem open_update (h : s.Open name) (hw : s.worker w = y)
    (hmap : map.lookup name = none → s.map.lookup name = none)
    (hactive : map.lookup name = none → ∀ q, x.active name q = y.active name q) :
    UploadRun.Open name ⟨map, requests, Function.update s.worker w x⟩ := by
  intro hnone q
  have hsum := sum_update_add (fun _ x => Uploader.active name x q) s.worker w x
  have hzero := h (hmap hnone) q
  have hq := hactive hnone q
  dsimp only at hsum ⊢
  rw [hw] at hsum
  omega

/-- A worker moves and has the same parts. -/
theorem keep (h : Ledger args name whole s) (hw : s.worker w = y) (hy : ¬y.Failed)
    (hpending : ∀ q, x.pending args name q = y.pending args name q)
    (huploaded : ∀ q, x.uploaded name q + keptCount name map requests q =
      y.uploaded name q + keptCount name s.map s.requests q)
    (hx : x.Ok name whole) (hentry : ∀ elem ∈ map.lookup name, elem.Ok whole)
    (hsent : uploadedParts name requests = uploadedParts name s.requests)
    (hnew : ∀ list ∈ completedLists name requests, list = whole)
    (hopen : s.Open name → UploadRun.Open name ⟨map, requests, Function.update s.worker w x⟩) :
    Ledger args name whole ⟨map, requests, Function.update s.worker w x⟩ :=
  h.move hw (fun q => by rw [hpending, hsent]) (fun q => by rw [huploaded, hsent]) hx hentry hnew
    fun _ => ⟨hy, fun hold => ⟨fun q => by rw [hpending, add_assoc, ← huploaded, add_assoc],
      fun _ => hopen hold⟩⟩

/-- A worker moves, and the map and the requests stay. -/
theorem keepWorker (h : Ledger args name whole s) (hw : s.worker w = y) (hy : ¬y.Failed)
    (hpending : ∀ q, x.pending args name q = y.pending args name q)
    (huploaded : ∀ q, x.uploaded name q = y.uploaded name q) (hx : x.Ok name whole)
    (hactive : s.map.lookup name = none → ∀ q, x.active name q = y.active name q) :
    Ledger args name whole (s.setWorker w x) :=
  h.keep hw hy hpending (fun q => by rw [huploaded]) hx h.entry rfl h.completed
    fun hopen => open_update hopen hw id hactive

/-- A worker moves and enters something in the map. -/
theorem insert (h : Ledger args name whole s) (hw : s.worker w = y) (hy : ¬y.Failed) {k : String}
    (hpending : ∀ q, x.pending args name q = y.pending args name q)
    (huploaded : ∀ q, x.uploaded name q + keptCount name (s.map.insert k elem) requests q =
      y.uploaded name q + keptCount name s.map s.requests q)
    (hx : x.Ok name whole) (helem : name = k → elem.Ok whole)
    (hsent : uploadedParts name requests = uploadedParts name s.requests)
    (hlists : completedLists name requests = completedLists name s.requests)
    (hactive : name ≠ k → ∀ q, x.active name q = y.active name q) :
    Ledger args name whole ⟨s.map.insert k elem, requests, Function.update s.worker w x⟩ := by
  refine h.keep hw hy hpending huploaded hx (fun elem' hlookup => ?_) hsent
    (hlists ▸ h.completed) fun hopen => open_update hopen hw (fun hnone => ?_) fun hnone => ?_
  · by_cases hk : name = k
    · rw [hk, AList.lookup_insert] at hlookup
      exact Option.some.inj hlookup ▸ helem hk
    · rw [AList.lookup_insert_ne hk] at hlookup
      exact h.entry elem' hlookup
  all_goals rw [AList.lookup_insert_eq_none] at hnone
  · exact hnone.2
  · exact hactive hnone.1

/-- A worker has an error. -/
theorem fail (h : Ledger args name whole s) (hx : x.Failed)
    (hmap : ∀ elem ∈ map.lookup name, elem ∈ s.map.lookup name)
    (hsent : uploadedParts name requests = uploadedParts name s.requests)
    (hlists : completedLists name requests = completedLists name s.requests) :
    Ledger args name whole ⟨map, requests, Function.update s.worker w x⟩ := by
  have hzero (q : Part) : x.pending args name q = 0 ∧ x.uploaded name q = 0 := by
    cases x <;> first | exact hx.elim | exact ⟨rfl, rfl⟩
  refine h.move rfl (fun q => ?_) (fun q => ?_) (by cases x <;> first | exact hx.elim | trivial)
    (fun elem helem => h.entry elem (hmap elem helem)) (hlists ▸ h.completed)
    fun hfine => absurd hx hfine
  · rw [(hzero q).1, hsent]
    omega
  · have hparts : (map.parts name).count q ≤ (s.map.parts name).count q := by
      unfold S3UploadMap.parts
      cases hlookup : map.lookup name with
      | none => exact Nat.zero_le _
      | some elem => rw [hmap elem hlookup]
    rw [(hzero q).2, hsent, keptCount, keptCount, hlists]
    omega

/-! ## Steps -/

/-- What a worker, the map and the requests have. -/
theorem count_le (h : Ledger args name whole s) (w : Fin n) (q : Part) :
    (s.worker w).pending args name q + (s.worker w).uploaded name q +
      keptCount name s.map s.requests q ≤ whole.count q := by
  have hpending := le_sum (fun x => Uploader.pending args name x q) s.worker w
  have huploaded := le_sum (fun x => Uploader.uploaded name x q) s.worker w
  have hle := h.sent_le q
  have hle' := h.le_sent q
  omega

/-- Once a worker has the list, no worker has parts for the upload. -/
theorem sum_active {worker : Fin n → Uploader} {q : Part}
    (hle : ∑ v, (worker v).pending args name q + ∑ v, (worker v).uploaded name q ≤ whole.count q)
    (hlisted : (worker w).listed name q = whole.count q) :
    ∑ v, (worker v).active name q = 0 := by
  have hactive : ∑ v, (worker v).active name q ≤
      ∑ v, ((worker v).pending args name q + (worker v).answered name q) := by
    refine Finset.sum_le_sum fun v _ => ?_
    cases worker v <;> simp only [Uploader.active, Uploader.pending, Uploader.answered, zero_le]
    split_ifs <;> omega
  have hw := le_sum (fun x => Uploader.listed name x q) worker w
  simp only [Uploader.uploaded, Finset.sum_add_distrib] at hle hactive
  omega

/-- A worker with parts to handle has no list. -/
theorem list_eq_none (h : Ledger args name whole s) (hw : s.worker w = .uploading u todo)
    (hname : u.elem.path = name) (hbatch : u.batch = (p, true) :: batch) :
    u.allCompletedParts = none := by
  cases hlist : u.allCompletedParts with
  | none => rfl
  | some list =>
    -- the list has all parts, so the part would be there twice
    have hle := h.count_le w p
    have hcount := (((h.ok hw).2 hname).2 list hlist).count_eq p
    simp [hw, hname, hbatch, hlist, hcount] at hle
    omega

/-- The call of `getMultipartUploadID`. -/
theorem startUpload (h : Ledger args name whole s) {e : PathStoreElem}
    (hw : s.worker w = .iterating (e :: todo)) {parts : List Part}
    (hparts : args.rangeParts args.randOffsetAlgo e = some parts) :
    Ledger args name whole (s.startUpload w e todo parts) := by
  have hok := h.ok hw
  have hentry : args.entryParts e = parts := by rw [UploadArgs.entryParts, hparts]; rfl
  have hpending (uploadID : ℕ) (q : Part) : Uploader.pending args name
      (.uploading (.start e uploadID parts) todo) q =
        Uploader.pending args name (.iterating (e :: todo)) q := by
    simp [todoCount, SharedUpload.start, hentry, add_comm]
  have huploaded (uploadID : ℕ) (q : Part) :
      Uploader.uploaded name (.uploading (.start e uploadID parts) todo) q = 0 := by
    by_cases hname : e.path = name <;> simp [SharedUpload.start, hname]
  have hx (uploadID : ℕ) : Uploader.Ok name whole (.uploading (.start e uploadID parts) todo) :=
    ⟨fun e' he' => hok e' (List.mem_cons_of_mem e he'),
      fun hname => ⟨(hok e List.mem_cons_self hname).2, nofun⟩⟩
  cases hlookup : s.map.lookup e.path with
  | some elem =>
    simp only [UploadRun.startUpload, S3UploadMap.getMultipartUploadID, hlookup,
      Option.isSome_some, if_true]
    refine h.keepWorker hw id (hpending _) (huploaded _) (hx _) fun hnone q => if_neg ?_
    rintro rfl
    cases hlookup.symm.trans hnone
  | none =>
    simp only [UploadRun.startUpload, S3UploadMap.getMultipartUploadID, hlookup,
      Option.isSome_none, Bool.false_eq_true, if_false]
    refine h.insert hw id (hpending _) (fun q => ?_) (hx _) (fun hname => ?_)
      (by simp [uploadedParts]) (by simp [completedLists]) fun hname q => if_neg (Ne.symm hname)
    · rw [huploaded]
      by_cases hname : name = e.path
      · subst hname
        simp [keptCount, S3UploadMap.parts, completedLists, hlookup]
      · simp [keptCount, S3UploadMap.parts, completedLists, hname]
    · obtain ⟨hshared, hlen⟩ := hok e List.mem_cons_self hname.symm
      exact ⟨rfl, hlen ▸ Nat.zero_lt_of_lt hshared⟩

theorem submit (h : Ledger args name whole s) (hw : s.worker w = .uploading u todo)
    {u' : SharedUpload} (hu' : u.submit args.depth = some u') :
    Ledger args name whole (s.setWorker w (.uploading u' todo)) := by
  unfold SharedUpload.submit at hu'
  split at hu'
  · next p left hsubmitting hleft =>
    obtain rfl := Option.some.inj hu'
    have hok := h.ok hw
    refine h.keepWorker hw id (fun q => ?_) (fun q => ?_) hok fun _ q => ?_
    all_goals simp [hleft, List.count_cons, add_assoc, add_comm]
  · cases hu'

theorem answer (h : Ledger args name whole s) (hw : s.worker w = .uploading u todo) {i : ℕ}
    {u' : SharedUpload} (hu' : u.answer i = some (p, u')) :
    Ledger args name whole ⟨s.map, s.requests ++ [.uploadPart u'.elem.path u'.uploadID p],
      Function.update s.worker w (.uploading u' todo)⟩ := by
  unfold SharedUpload.answer at hu'
  split at hu'
  · next p' hi =>
    obtain ⟨rfl, rfl⟩ := Prod.mk.inj (Option.some.inj hu')
    have hok := h.ok hw
    obtain ⟨hlt, hget⟩ := List.getElem?_eq_some_iff.mp hi
    have hbatch : u.batch = u.batch.take i ++ (p', false) :: u.batch.drop (i + 1) := by
      rw [← hget, List.getElem_cons_drop, List.take_append_drop]
    have hset : u.batch.set i (p', true) = u.batch.take i ++ (p', true) :: u.batch.drop (i + 1) :=
      List.set_eq_take_append_cons_drop.trans (if_pos hlt)
    generalize u.batch.take i = before, u.batch.drop (i + 1) = after at hbatch hset
    rw [hset]
    have hlists : completedLists name (s.requests ++ [.uploadPart u.elem.path u.uploadID p']) =
        completedLists name s.requests := by simp [completedLists]
    by_cases hname : u.elem.path = name
    · refine h.move hw (fun q => ?_) (fun q => ?_) hok h.entry (hlists ▸ h.completed)
        fun _ => ⟨id, fun hopen => ⟨fun q => ?_, fun _ => open_update hopen hw id fun _ q => ?_⟩⟩
      all_goals simp [hbatch, hname, uploadedParts, keptCount, completedLists, List.count_cons]
      all_goals omega
    · refine h.keep hw id (fun q => ?_) (fun q => ?_) hok h.entry ?_ (hlists ▸ h.completed)
        fun hopen => open_update hopen hw id fun _ q => ?_
      all_goals simp [hname, uploadedParts, keptCount, hlists]
  · cases hu'

section Handle

variable (h : Ledger args name whole s) (hw : s.worker w = .uploading u todo)
  (hbatch : u.batch = (p, true) :: batch)

include h hw hbatch

/-- A part is not in the batch any more. -/
theorem handled (list : Option (List Part)) (q : Part) :
    Uploader.pending args name (.uploading (u.handled batch list) todo) q =
        Uploader.pending args name (.uploading u todo) q ∧
      Uploader.uploaded name (.uploading (u.handled batch list) todo) q +
          (if u.elem.path = name then [p].count q else 0) =
        Uploader.uploaded name (.uploading u todo) q +
          if u.elem.path = name then (list.getD []).count q else 0 := by
  by_cases hname : u.elem.path = name
  · have hnone := h.list_eq_none hw hname hbatch
    simp [SharedUpload.handled, hname, hbatch, hnone, List.count_cons]
    omega
  · simp [SharedUpload.handled, hname]

/-- **The bytes of the parts are counted**, and if they are all there, then so are the parts. -/
theorem bytes_addPart (hA : Assigned args name whole lists) (hname : u.elem.path = name)
    (helem : s.map.lookup name = some elem) :
    (S3UploadMap.addPart elem p.blockSize p).numBytesDone = totalSize (elem.completedParts ++ [p]) ∧
      (u.elem.totalLen ≤ (S3UploadMap.addPart elem p.blockSize p).numBytesDone →
        (elem.completedParts ++ [p]).Perm whole) := by
  have hcount : ∀ q, (elem.completedParts ++ [p]).count q ≤ whole.count q := by
    intro q
    have hle := h.count_le w q
    simp [hw, hname, hbatch, keptCount, S3UploadMap.parts, helem, List.count_cons] at hle ⊢
    omega
  obtain ⟨hle, hall⟩ := perm_of_totalSize_le hcount hA.consecutive.pos
  have hbytes : (S3UploadMap.addPart elem p.blockSize p).numBytesDone =
      totalSize (elem.completedParts ++ [p]) := by
    have hlt := hA.size_lt
    rw [totalSize_append, totalSize_cons, totalSize_nil, Nat.add_zero,
      ← (h.entry elem helem).1] at hle ⊢
    exact Word64.add_eq (by omega)
  exact ⟨hbytes, fun htotal => hall (by rw [← hbytes, ← ((h.ok hw).2 hname).1]; exact htotal)⟩

/-- A part is added to the map. -/
theorem add (hA : Assigned args name whole lists) (helem : s.map.lookup u.elem.path = some elem)
    (hmore : (S3UploadMap.addPart elem p.blockSize p).numBytesDone < u.elem.totalLen) :
    Ledger args name whole
      ⟨s.map.insert u.elem.path (S3UploadMap.addPart elem p.blockSize p), s.requests,
        Function.update s.worker w (.uploading (u.handled batch none) todo)⟩ := by
  have hok := h.ok hw
  refine h.insert hw id (fun q => (h.handled hw hbatch none q).1) (fun q => ?_)
    ⟨hok.1, fun hname => ⟨(hok.2 hname).1, nofun⟩⟩
    (fun hname => ⟨(h.bytes_addPart hw hbatch hA hname.symm (hname ▸ helem)).1,
      (hok.2 hname.symm).1 ▸ hmore⟩) rfl rfl
    fun hname q => by simp [SharedUpload.handled, Ne.symm hname]
  have heq := (h.handled hw hbatch none q).2
  by_cases hname : u.elem.path = name
  · subst hname
    simp [keptCount, S3UploadMap.parts, helem, S3UploadMap.addPart] at heq ⊢
    omega
  · simp [keptCount, S3UploadMap.parts, Ne.symm hname, hname] at heq ⊢
    omega

/-- The last part is added, and the list is taken out of the map. -/
theorem finish (hA : Assigned args name whole lists) (helem : s.map.lookup u.elem.path = some elem)
    (hall : u.elem.totalLen ≤ (S3UploadMap.addPart elem p.blockSize p).numBytesDone) :
    Ledger args name whole ⟨s.map.erase u.elem.path, s.requests, Function.update s.worker w
      (.uploading (u.handled batch (some (elem.completedParts ++ [p]))) todo)⟩ := by
  have hok := h.ok hw
  have hperm (hname : u.elem.path = name) : (elem.completedParts ++ [p]).Perm whole :=
    (h.bytes_addPart hw hbatch hA hname (hname ▸ helem)).2 hall
  have hpending (q : Part) := (h.handled hw hbatch (some (elem.completedParts ++ [p])) q).1
  have huploaded (q : Part) : Uploader.uploaded name
      (.uploading (u.handled batch (some (elem.completedParts ++ [p]))) todo) q +
        keptCount name (s.map.erase u.elem.path) s.requests q =
      Uploader.uploaded name (.uploading u todo) q + keptCount name s.map s.requests q := by
    have heq := (h.handled hw hbatch (some (elem.completedParts ++ [p])) q).2
    by_cases hname : u.elem.path = name
    · subst hname
      simp [keptCount, S3UploadMap.parts, helem] at heq ⊢
      omega
    · simp [keptCount, S3UploadMap.parts, Ne.symm hname, hname] at heq ⊢
      omega
  refine h.move hw (fun q => by rw [hpending q]) (fun q => by rw [huploaded q]) ⟨hok.1, fun hname =>
    ⟨(hok.2 hname).1, fun list hlist => Option.some.inj hlist ▸ hperm hname⟩⟩
    (fun elem' hlookup => h.entry elem' (mem_lookup_of_erase hlookup)) h.completed
    fun _ => ⟨id, fun hopen => ⟨fun q => by rw [hpending q, add_assoc, ← huploaded q, add_assoc],
      fun hle => ?_⟩⟩
  by_cases hname : u.elem.path = name
  · -- the list has all parts, so nobody has any for the upload
    intro _ q
    refine sum_active (w := w) (hle q) ?_
    dsimp only
    rw [Function.update_self]
    simp [SharedUpload.handled, hname, ← (hperm hname).count_eq]
  · refine open_update hopen hw (fun hnone => ?_) fun _ q => ?_
    · rwa [AList.lookup_erase_ne (Ne.symm hname)] at hnone
    · simp [SharedUpload.handled, hname]

/-- A part for an upload that is not in the map is lost, and that happens only after an error. -/
theorem reject (helem : s.map.lookup u.elem.path = none) :
    Ledger args name whole (s.setWorker w (.uploading (u.handled batch none) todo)) := by
  have hok := h.ok hw
  refine h.move hw (fun q => by rw [(h.handled hw hbatch none q).1]) (fun q => ?_)
    ⟨hok.1, fun hname => ⟨(hok.2 hname).1, nofun⟩⟩ h.entry h.completed
    fun _ => ⟨id, fun hopen => ?_⟩
  · have heq := (h.handled hw hbatch none q).2
    simp only [Option.getD_none, List.count_nil, ite_self] at heq
    omega
  · -- the worker has the part, so the upload is still in the map
    have hname : u.elem.path ≠ name := fun hname => by
      have hzero := Finset.sum_eq_zero_iff.mp (hopen (hname ▸ helem) p) w (Finset.mem_univ w)
      simp [hw, hname, hbatch] at hzero
    refine ⟨fun q => ?_, fun _ => open_update hopen hw id fun _ q => ?_⟩
    all_goals simp [SharedUpload.handled, hname]

/-- **The call of `addCompletedPart`.** -/
theorem addPart (hA : Assigned args name whole lists) :
    Ledger args name whole (s.addPart args w u todo p batch) := by
  rw [UploadRun.addPart, S3UploadMap.addCompletedPart, hA.completes]
  cases helem : s.map.lookup u.elem.path with
  | none =>
    simpa [UploadRun.setWorker] using h.reject hw hbatch helem
  | some elem =>
    by_cases hmore : (S3UploadMap.addPart elem p.blockSize p).numBytesDone < u.elem.totalLen
    · simpa [hmore] using h.add hw hbatch hA helem hmore
    · by_cases hleft : u.left = []
      · simp only [hmore, hleft, Bool.false_eq_true, or_self, if_false, ne_eq, not_true, and_false]
        exact h.finish hw hbatch hA helem (not_lt.mp hmore)
      · simpa [hmore, hleft] using h.fail (w := w) (x := .cleaning none) trivial
          (fun _ => mem_lookup_of_erase) rfl rfl

end Handle

/-- The worker leaves the upload, to complete it if it has the list. -/
theorem leave (h : Ledger args name whole s) (hA : Assigned args name whole lists)
    (hw : s.worker w = .uploading u todo) (hdone : u.left = [] ∧ u.batch = []) :
    Ledger args name whole (s.setWorker w (UploadRun.leaveUpload args u todo)) := by
  have hok := h.ok hw
  rw [UploadRun.leaveUpload, hA.completes, if_neg Bool.false_ne_true]
  cases hlist : u.allCompletedParts with
  | none =>
    refine h.keepWorker hw id (fun q => ?_) (fun q => ?_) hok.1 fun _ q => ?_
    all_goals simp [hdone, hlist]
  | some list =>
    refine h.keepWorker hw id (fun q => ?_) (fun q => ?_) ⟨hok.1, fun hname =>
      hA.consecutive.eq_mergeSort ((hok.2 hname).2 list hlist)⟩ fun _ q => ?_
    all_goals simp [hdone, hlist, (List.mergeSort_perm list Part.le).count_eq]

/-- The answer to the completion request. -/
theorem complete (h : Ledger args name whole s) (hA : Assigned args name whole lists)
    {object : String} {uploadID : ℕ} {parts : List Part} {outcome : CompletionOutcome}
    (hw : s.worker w = .completing object uploadID parts todo)
    (hs' : s.completed args w object uploadID parts todo outcome = some s') :
    Ledger args name whole s' := by
  have hok := h.ok hw
  have hfail : Ledger args name whole ⟨s.map,
      s.requests ++ [.abortMultipartUpload object uploadID],
      Function.update s.worker w (.cleaning none)⟩ :=
    h.fail trivial (fun _ => id) (by simp [uploadedParts]) (by simp [completedLists])
  cases outcome with
  | success =>
    obtain rfl := Option.some.inj hs'
    refine h.keep hw id (fun q => rfl) (fun q => ?_) hok.1 h.entry (by simp [uploadedParts])
      (fun list hlist => ?_) fun hopen => open_update hopen hw id fun _ q => rfl
    · by_cases hname : object = name
      · simp [keptCount, completedLists, hname]
        omega
      · simp [keptCount, completedLists, hname]
    · by_cases hname : object = name
      · simp only [completedLists, List.filterMap_append, List.mem_append] at hlist
        exact hlist.elim (h.completed list) fun heq => by simpa [hname, hok.2 hname] using heq
      · exact h.completed list (by simpa [completedLists, hname] using hlist)
  | notFound =>
    rw [UploadRun.completed, hA.fails_on_404] at hs'
    split_ifs at hs' with hended hfalse
    · cases hfalse
    · exact Option.some.inj hs' ▸ hfail
  | failed => exact Option.some.inj hs' ▸ hfail

/-- **A step keeps the account.** -/
theorem of_step (h : Ledger args name whole s) (hA : Assigned args name whole lists)
    {a : UploadAction n} (hs' : s.step args a = some s') : Ledger args name whole s' := by
  cases a with
  | begin w =>
    rw [UploadRun.step] at hs'
    split at hs'
    · next e todo hw =>
      split_ifs at hs' with hshared
      · obtain ⟨parts, hparts, rfl⟩ := Option.map_eq_some_iff.mp hs'
        exact h.startUpload hw hparts
      · obtain rfl := Option.some.inj hs'
        have hok := h.ok hw
        have hname : e.path ≠ name := fun hname => hshared (hok e List.mem_cons_self hname).1
        exact h.keepWorker hw id (fun q => by simp [todoCount, hname]) (fun _ => rfl)
          (fun e' he' => hok e' (List.mem_cons_of_mem e he')) fun _ _ => rfl
    · cases hs'
  | submit w =>
    rw [UploadRun.step] at hs'
    split at hs'
    · next u todo hw =>
      obtain ⟨u', hu', rfl⟩ := Option.map_eq_some_iff.mp hs'
      exact h.submit hw hu'
    · cases hs'
  | answer w i =>
    rw [UploadRun.step] at hs'
    split at hs'
    · next u todo hw =>
      obtain ⟨⟨p, u'⟩, hu', rfl⟩ := Option.map_eq_some_iff.mp hs'
      exact h.answer hw hu'
    · cases hs'
  | handle w =>
    rw [UploadRun.step] at hs'
    split at hs'
    · next u todo hw =>
      obtain ⟨⟨p, batch⟩, hnext, rfl⟩ := Option.map_eq_some_iff.mp hs'
      unfold SharedUpload.next at hnext
      split at hnext
      · next hbatch =>
        obtain ⟨rfl, rfl⟩ := Prod.mk.inj (Option.some.inj hnext)
        exact h.addPart hw hbatch hA
      · cases hnext
    · cases hs'
  | leave w =>
    rw [UploadRun.step] at hs'
    split at hs'
    · next u todo hw =>
      split_ifs at hs' with hdone
      exact Option.some.inj hs' ▸ h.leave hA hw hdone
    · cases hs'
  | complete w outcome =>
    rw [UploadRun.step] at hs'
    split at hs'
    · next hw => exact h.complete hA hw hs'
    · cases hs'
  | finishPhase w =>
    rw [UploadRun.step] at hs'
    split at hs'
    · next hw =>
      obtain rfl := Option.some.inj hs'
      exact h.keepWorker hw id (fun _ => rfl) (fun _ => rfl) trivial fun _ _ => rfl
    · cases hs'
  | throw w =>
    obtain ⟨x, hx, rfl⟩ := Option.map_eq_some_iff.mp hs'
    refine h.fail ?_ (fun _ => id) rfl rfl
    unfold UploadRun.thrown at hx
    split at hx
    · exact Option.some.inj hx ▸ trivial
    · split_ifs at hx
      exact Option.some.inj hx ▸ trivial
    · cases hx
  | takeUnfinished w object =>
    rw [UploadRun.step] at hs'
    split at hs'
    · obtain ⟨elem, -, rfl⟩ := Option.map_eq_some_iff.mp hs'
      exact h.fail trivial (fun _ => mem_lookup_of_erase) rfl rfl
    · cases hs'
  | abort w =>
    rw [UploadRun.step] at hs'
    split at hs'
    · obtain rfl := Option.some.inj hs'
      exact h.fail trivial (fun _ => id) (by simp [uploadedParts]) (by simp [completedLists])
    · cases hs'
  | endCleaning w =>
    rw [UploadRun.step] at hs'
    split at hs'
    · split_ifs at hs'
      exact Option.some.inj hs' ▸ h.fail rfl (fun _ => id) rfl rfl
    · cases hs'
  | terminate w =>
    rw [UploadRun.step] at hs'
    split at hs'
    · next hw =>
      obtain rfl := Option.some.inj hs'
      exact h.keepWorker hw id (fun _ => rfl) (fun _ => rfl) trivial fun _ _ => rfl
    · cases hs'

theorem start (hA : Assigned args name whole lists) :
    Ledger args name whole (UploadRun.start lists) := by
  have hpending (q : Part) : ∑ w, ((UploadRun.start lists).worker w).pending args name q =
      whole.count q := hA.sum_todo q
  have huploaded (q : Part) : ∑ w, ((UploadRun.start lists).worker w).uploaded name q +
      keptCount name ∅ [] q = 0 := by
    rw [Finset.sum_eq_zero fun w _ => by rfl]
    rfl
  exact ⟨fun q => (hpending q).le, fun q => (huploaded q).le, hA.entries, nofun, nofun, fun _ =>
    ⟨fun _ q => Finset.sum_eq_zero fun w _ => rfl, fun q => by rw [hpending]; omega⟩⟩

/-- **The account of every run.** -/
theorem of_reach (hA : Assigned args name whole lists)
    (hs : Reach (UploadRun.step args) anyStep (UploadRun.start lists) s) :
    Ledger args name whole s :=
  hs.invariant (start hA) fun _ _ _ h _ hstep => h.of_step hA hstep

end Ledger

end Elbencho

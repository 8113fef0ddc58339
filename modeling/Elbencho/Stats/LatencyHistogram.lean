import Mathlib.Algebra.Group.Pi.Basic
import Mathlib.Data.List.FinRange
import Elbencho.Library.PropertyTree

/-!
# Latency histograms

A worker counts the latencies of its operations in a histogram: a counter for each of a fixed
number of buckets, and besides the number of values, their sum, the least and the greatest
one.  Histograms are merged with `+=`, and a service sends a merged histogram to the master as
part of a property tree, where only the buckets that are not empty are listed.

* Merging is the addition of a commutative monoid, whose zero is a histogram that was just
  reset: its least value is the greatest word, and its greatest value is zero.
* **`LatencyHistogram.StoredIn.setFromPropertyTreeForService`**: the histogram that is read
  from a tree is the one that was written there, whatever else was written to other keys.
-/

namespace Elbencho

open PropertyTree

/-! ## Histograms and how they are merged -/

/-- `LATHISTO_SUBBUCKET_COUNT` -/
def lathistoSubbucketCount : ℕ := 1 <<< 7

/-- `LATHISTO_SUBBUCKET_HALFCOUNT` -/
def lathistoSubbucketHalfcount : ℕ := lathistoSubbucketCount / 2

/-- `LATHISTO_MAXBUCKETIDX` -/
def lathistoMaxbucketidx : ℕ := 38

/-- `LATHISTO_NUMBUCKETS` -/
def lathistoNumbuckets : ℕ :=
  lathistoSubbucketCount + lathistoMaxbucketidx * lathistoSubbucketHalfcount

/-- Bucket numbers fit into words. -/
theorem lathistoNumbuckets_lt : lathistoNumbuckets < UInt64.size := by decide

/-- `LatencyHistogram`, without the counters of the live statistics. -/
@[ext] structure LatencyHistogram where
  numStoredValues : UInt64
  numMicroSecTotal : UInt64
  minMicroSecLat : UInt64
  maxMicroSecLat : UInt64
  buckets : Fin lathistoNumbuckets → UInt64

namespace LatencyHistogram

/-- A new histogram, and one that was reset. -/
def reset : LatencyHistogram where
  numStoredValues := 0
  numMicroSecTotal := 0
  minMicroSecLat := ~~~0
  maxMicroSecLat := 0
  buckets _ := 0

/-- `operator+=` -/
def merge (h rhs : LatencyHistogram) : LatencyHistogram where
  buckets i := h.buckets i + rhs.buckets i
  numStoredValues := h.numStoredValues + rhs.numStoredValues
  numMicroSecTotal := h.numMicroSecTotal + rhs.numMicroSecTotal
  minMicroSecLat :=
    if rhs.minMicroSecLat < h.minMicroSecLat then rhs.minMicroSecLat else h.minMicroSecLat
  maxMicroSecLat :=
    if rhs.maxMicroSecLat > h.maxMicroSecLat then rhs.maxMicroSecLat else h.maxMicroSecLat

instance : Zero LatencyHistogram := ⟨reset⟩

instance : Add LatencyHistogram := ⟨merge⟩

/-- The least value of a new histogram is above all latencies. -/
theorem le_reset_minMicroSecLat (n : UInt64) : n ≤ reset.minMicroSecLat := by
  have hmax : reset.minMicroSecLat.toNat = UInt64.size - 1 := rfl
  have hlt := n.toNat_lt_size
  rw [UInt64.le_iff_toNat_le]
  omega

theorem merge_assoc (a b c : LatencyHistogram) :
    merge (merge a b) c = merge a (merge b c) := by
  ext : 1
  · exact add_assoc a.numStoredValues _ _
  · exact add_assoc a.numMicroSecTotal _ _
  · simp only [merge]
    grind
  · simp only [merge]
    grind
  · exact add_assoc a.buckets _ _

theorem merge_comm (a b : LatencyHistogram) : merge a b = merge b a := by
  ext : 1
  · exact add_comm a.numStoredValues _
  · exact add_comm a.numMicroSecTotal _
  · simp only [merge]
    grind
  · simp only [merge]
    grind
  · exact add_comm a.buckets _

theorem reset_merge (a : LatencyHistogram) : merge reset a = a := by
  ext : 1
  · exact zero_add a.numStoredValues
  · exact zero_add a.numMicroSecTotal
  · have hle := le_reset_minMicroSecLat a.minMicroSecLat
    simp only [merge]
    grind
  · simp only [merge, reset]
    grind
  · exact zero_add a.buckets

instance : AddCommMonoid LatencyHistogram where
  add_assoc := merge_assoc
  zero_add := reset_merge
  add_zero a := (merge_comm a reset).trans (reset_merge a)
  add_comm := merge_comm
  nsmul := nsmulRec

/-! ## Histograms in property trees -/

/-- One bucket in the list. -/
def bucketEntry (i : Fin lathistoNumbuckets) (count : UInt64) : PropertyTree :=
  (PropertyTree.empty.put "i" (UInt64.ofNat i)).put "c" count

/-- The four counters are written under keys that begin with `pre`. -/
def putCounters (h : LatencyHistogram) (tree : PropertyTree) (pre : String) : PropertyTree :=
  (((tree.put (pre ++ "LatNumValues") h.numStoredValues).put
    (pre ++ "LatMicroSecTotal") h.numMicroSecTotal).put
    (pre ++ "LatMinMicroSec") h.minMicroSecLat).put
    (pre ++ "LatMaxMicroSec") h.maxMicroSecLat

/-- Buckets are skipped if they are empty. -/
def getAsPropertyTreeForService (h : LatencyHistogram) (tree : PropertyTree) (pre : String) :
    PropertyTree :=
  (List.finRange lathistoNumbuckets).foldl
    (fun tree i => if h.buckets i = 0 then tree
      else tree.addChild (pre ++ "LatHistoList") "item" (bucketEntry i (h.buckets i)))
    (h.putCounters tree pre)

/-- The loop over the received buckets. -/
def setBuckets : List (String × PropertyTree) → (Fin lathistoNumbuckets → UInt64) →
    Except Error (Fin lathistoNumbuckets → UInt64)
  | [], buckets => .ok buckets
  | (_, bucketItem) :: items, buckets => do
    let bucketIndex : UInt64 ← bucketItem.get "i"
    let bucketCount : UInt64 ← bucketItem.get "c"
    -- buckets of a sender with more of them are dropped
    if hlt : bucketIndex.toNat < lathistoNumbuckets then
      setBuckets items (Function.update buckets ⟨bucketIndex.toNat, hlt⟩ bucketCount)
    else setBuckets items buckets

/-- The buckets are zero where nothing was received. -/
def receivedBuckets (tree : PropertyTree) (pre : String) :
    Except Error (Fin lathistoNumbuckets → UInt64) :=
  match tree.child? (pre ++ "LatHistoList") with
  | none => .ok fun _ => 0
  | some listTree => setBuckets listTree.children fun _ => 0

def setFromPropertyTreeForService (tree : PropertyTree) (pre : String) :
    Except Error LatencyHistogram := do
  let numStoredValues ← tree.get (pre ++ "LatNumValues")
  let numMicroSecTotal ← tree.get (pre ++ "LatMicroSecTotal")
  let minMicroSecLat ← tree.get (pre ++ "LatMinMicroSec")
  let maxMicroSecLat ← tree.get (pre ++ "LatMaxMicroSec")
  let buckets ← receivedBuckets tree pre
  .ok ⟨numStoredValues, numMicroSecTotal, minMicroSecLat, maxMicroSecLat, buckets⟩

/-- The keys of a histogram. -/
def keys (pre : String) : List String :=
  [pre ++ "LatNumValues", pre ++ "LatMicroSecTotal", pre ++ "LatMinMicroSec",
    pre ++ "LatMaxMicroSec", pre ++ "LatHistoList"]

/-- The entries for the buckets that are not empty. -/
def bucketEntries (h : LatencyHistogram) : List PropertyTree :=
  ((List.finRange lathistoNumbuckets).filter (h.buckets · ≠ 0)).map fun i =>
    bucketEntry i (h.buckets i)

/-- A tree has the values of a histogram under the keys that begin with `pre`. -/
structure StoredIn (h : LatencyHistogram) (tree : PropertyTree) (pre : String) : Prop where
  numStoredValues : tree.get (pre ++ "LatNumValues") = .ok h.numStoredValues
  numMicroSecTotal : tree.get (pre ++ "LatMicroSecTotal") = .ok h.numMicroSecTotal
  minMicroSecLat : tree.get (pre ++ "LatMinMicroSec") = .ok h.minMicroSecLat
  maxMicroSecLat : tree.get (pre ++ "LatMaxMicroSec") = .ok h.maxMicroSecLat
  items : tree.items (pre ++ "LatHistoList") = h.bucketEntries.map (Prod.mk "item")

/-- Writing to other keys does not change a stored histogram. -/
theorem StoredIn.congr {h : LatencyHistogram} {tree tree' : PropertyTree} {pre : String}
    (hstored : h.StoredIn tree pre)
    (heq : ∀ key ∈ keys pre, tree'.child? key = tree.child? key) : h.StoredIn tree' pre := by
  simp only [keys, List.forall_mem_cons] at heq
  obtain ⟨hnum, htotal, hmin, hmax, hlist, -⟩ := heq
  exact ⟨(get_congr hnum).trans hstored.numStoredValues,
    (get_congr htotal).trans hstored.numMicroSecTotal,
    (get_congr hmin).trans hstored.minMicroSecLat,
    (get_congr hmax).trans hstored.maxMicroSecLat,
    (items_congr hlist).trans hstored.items⟩

/-- A histogram is read from its own keys only. -/
theorem setFromPropertyTreeForService_congr {tree tree' : PropertyTree} {pre : String}
    (heq : ∀ key ∈ keys pre, tree'.child? key = tree.child? key) :
    setFromPropertyTreeForService tree' pre = setFromPropertyTreeForService tree pre := by
  simp only [keys, List.forall_mem_cons] at heq
  obtain ⟨hnum, htotal, hmin, hmax, hlist, -⟩ := heq
  rw [setFromPropertyTreeForService, setFromPropertyTreeForService, get_congr hnum,
    get_congr htotal, get_congr hmin, get_congr hmax, receivedBuckets, receivedBuckets, hlist]

/-- The loop over the buckets appends the entries. -/
theorem getAsPropertyTreeForService_eq (h : LatencyHistogram) (tree : PropertyTree)
    (pre : String) :
    h.getAsPropertyTreeForService tree pre =
      (h.putCounters tree pre).addAll (pre ++ "LatHistoList") "item" h.bucketEntries := by
  unfold getAsPropertyTreeForService bucketEntries addAll
  rw [List.foldl_map, List.foldl_filter]
  congr 1
  funext tree i
  by_cases hzero : h.buckets i = 0
  · simp [hzero]
  · simp [hzero]

/-- A histogram is written to its own keys only. -/
theorem child?_getAsPropertyTreeForService (h : LatencyHistogram) (tree : PropertyTree)
    {pre key : String} (hkey : key ∉ keys pre) :
    (h.getAsPropertyTreeForService tree pre).child? key = tree.child? key := by
  simp only [keys, List.mem_cons, List.not_mem_nil, or_false, not_or] at hkey
  obtain ⟨hnum, htotal, hmin, hmax, hlist⟩ := hkey
  rw [getAsPropertyTreeForService_eq, child?_addAll_of_ne hlist, putCounters,
    child?_put_of_ne hmax, child?_put_of_ne hmin, child?_put_of_ne htotal,
    child?_put_of_ne hnum]

theorem get_getAsPropertyTreeForService {α : Type} [Translator α] (h : LatencyHistogram)
    (tree : PropertyTree) {pre key : String} (hkey : key ∉ keys pre) :
    ((h.getAsPropertyTreeForService tree pre).get key : Except Error α) = tree.get key :=
  get_congr (h.child?_getAsPropertyTreeForService tree hkey)

/-- Different keys with the same beginning. -/
theorem append_ne_append {a b : String} (pre : String) (hne : a ≠ b) : pre ++ a ≠ pre ++ b :=
  fun heq => hne (by simpa using heq)

/-- What was written is in the tree. -/
theorem storedIn_getAsPropertyTreeForService (h : LatencyHistogram) {tree : PropertyTree}
    {pre : String} (hnew : tree.child? (pre ++ "LatHistoList") = none) :
    h.StoredIn (h.getAsPropertyTreeForService tree pre) pre := by
  have hne {a b : String} (hab : a ≠ b) := append_ne_append pre hab
  rw [getAsPropertyTreeForService_eq]
  have hcounter {key : String} (hkey : key ≠ "LatHistoList") :
      (((h.putCounters tree pre).addAll (pre ++ "LatHistoList") "item" h.bucketEntries).get
        (pre ++ key) : Except Error UInt64) = (h.putCounters tree pre).get (pre ++ key) :=
    get_congr (child?_addAll_of_ne (hne hkey) _ _)
  constructor
  · rw [hcounter (by decide), putCounters, get_put_of_ne (hne (by decide)),
      get_put_of_ne (hne (by decide)), get_put_of_ne (hne (by decide)), get_put_self]
  · rw [hcounter (by decide), putCounters, get_put_of_ne (hne (by decide)),
      get_put_of_ne (hne (by decide)), get_put_self]
  · rw [hcounter (by decide), putCounters, get_put_of_ne (hne (by decide)), get_put_self]
  · rw [hcounter (by decide), putCounters, get_put_self]
  · rw [items_addAll, items_eq_nil, List.nil_append]
    rw [putCounters, child?_put_of_ne (hne (by decide)), child?_put_of_ne (hne (by decide)),
      child?_put_of_ne (hne (by decide)), child?_put_of_ne (hne (by decide)), hnew]

/-- A bucket is read from its entry. -/
theorem setBuckets_cons (i : Fin lathistoNumbuckets) (count : UInt64)
    (items : List (String × PropertyTree)) (buckets : Fin lathistoNumbuckets → UInt64) :
    setBuckets (("item", bucketEntry i count) :: items) buckets =
      setBuckets items (Function.update buckets i count) := by
  have hlt : i.val < UInt64.size := i.isLt.trans lathistoNumbuckets_lt
  have htoNat : (UInt64.ofNat i).toNat = i.val := UInt64.toNat_ofNat_of_lt' hlt
  have hi : (bucketEntry i count).get "i" = .ok (UInt64.ofNat i) := by
    rw [bucketEntry, get_put_of_ne (by decide), get_put_self]
  have hc : (bucketEntry i count).get "c" = .ok count := by
    rw [bucketEntry, get_put_self]
  have hbound : (UInt64.ofNat i).toNat < lathistoNumbuckets := by
    rw [htoNat]
    exact i.isLt
  rw [setBuckets, hi, hc]
  change (if hlt : (UInt64.ofNat i).toNat < lathistoNumbuckets then _ else _) = _
  rw [dif_pos hbound]
  simp only [htoNat]

/-- The received buckets get their counts, and the others keep theirs. -/
theorem setBuckets_map (f : Fin lathistoNumbuckets → UInt64)
    (is : List (Fin lathistoNumbuckets)) (buckets : Fin lathistoNumbuckets → UInt64) :
    setBuckets ((is.map fun i => bucketEntry i (f i)).map (Prod.mk "item")) buckets =
      .ok fun i => if i ∈ is then f i else buckets i := by
  induction is generalizing buckets with
  | nil => simp [setBuckets]
  | cons j is ih =>
    rw [List.map_cons, List.map_cons, setBuckets_cons, ih]
    refine congrArg Except.ok (funext fun i => ?_)
    by_cases hi : i ∈ is
    · simp [hi]
    · by_cases hij : i = j
      · simp [hij]
      · simp [hi, hij]

/-- **A stored histogram is read back.** -/
theorem StoredIn.setFromPropertyTreeForService {h : LatencyHistogram} {tree : PropertyTree}
    {pre : String} (hstored : h.StoredIn tree pre) :
    LatencyHistogram.setFromPropertyTreeForService tree pre = .ok h := by
  have hitems : receivedBuckets tree pre =
      setBuckets (tree.items (pre ++ "LatHistoList")) fun _ => 0 := by
    unfold receivedBuckets PropertyTree.items
    cases tree.child? (pre ++ "LatHistoList") <;> rfl
  have hbuckets : receivedBuckets tree pre = .ok h.buckets := by
    rw [hitems, hstored.items, bucketEntries, setBuckets_map]
    refine congrArg Except.ok (funext fun i => ?_)
    by_cases hzero : h.buckets i = 0
    · simp [hzero]
    · simp [hzero]
  rw [LatencyHistogram.setFromPropertyTreeForService, hstored.numStoredValues,
    hstored.numMicroSecTotal, hstored.minMicroSecLat, hstored.maxMicroSecLat, hbuckets]
  rfl

end LatencyHistogram
end Elbencho

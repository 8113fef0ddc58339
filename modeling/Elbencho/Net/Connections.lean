import Mathlib.Data.Fintype.BigOperators
import Mathlib.Data.Int.CardIntervalMod
import Elbencho.Library.Word64

/-!
# Who connects to whom

In the network benchmark the first services are servers and the others are clients, with the same
number of threads each.  Each client thread opens one connection, and the client threads take the
servers in turn.  The first thread of a server accepts all connections of the server, and waits
for a number that it computes from the numbers of hosts and threads.  Its threads then take the
accepted sockets in turn.

The servers and the clients never talk about these numbers, so the two computations have to agree:
`numConnsToWaitFor_eq_iff` says that they do as long as the number of all connections fits into an
`unsigned`.  `existsUnique_mem_everyNth` says that each accepted connection has one thread.
-/

namespace Elbencho

/-! ## Counts -/

/-- The services of a network benchmark.  Worker ranks are words. -/
structure NetBenchHosts where
  numNetBenchServers : ℕ
  numClientHosts : ℕ
  numThreads : ℕ
  numNetBenchServers_pos : 0 < numNetBenchServers
  numClientHosts_pos : 0 < numClientHosts
  numThreads_pos : 0 < numThreads
  numWorkers_lt : numThreads * (numNetBenchServers + numClientHosts) < Word64.size

namespace NetBenchHosts

variable (n : NetBenchHosts)

/-- The connections that the clients open: one for each thread. -/
def numConns : ℕ := n.numClientHosts * n.numThreads

/-- `numDataSetThreads`, which the master computes for all services. -/
def numDataSetThreads : ℕ :=
  Word64.mul n.numThreads (n.numNetBenchServers + n.numClientHosts)

/-- The rank offset that the master gives to a service. -/
def rankOffset (serviceRank : ℕ) : ℕ := Word64.mul serviceRank n.numThreads

/-- `hostIndex`. -/
def hostIndex (serviceRank : ℕ) : ℕ := n.rankOffset serviceRank / n.numThreads

/-- `numClients`. -/
def numClients : ℕ := Word64.sub (n.numDataSetThreads / n.numThreads) n.numNetBenchServers

/-- `numConnsTotal` is an `unsigned`. -/
def numConnsTotal : ℕ := Word64.mul n.numClients n.numThreads % 2 ^ 32

/-- `numConnsToWaitFor` of the server with a service rank. -/
def numConnsToWaitFor (serviceRank : ℕ) : ℕ :=
  n.numConnsTotal / n.numNetBenchServers +
    if n.numConnsTotal % n.numNetBenchServers ≠ 0 ∧
        n.hostIndex serviceRank < n.numConnsTotal % n.numNetBenchServers then 1
    else 0

/-- The rank of a client thread, counted from the first client on. -/
def clientWorkerRank (workerRank : ℕ) : ℕ :=
  Word64.sub workerRank (Word64.mul n.numNetBenchServers n.numThreads)

/-- `serversOffset`: the server that a client worker connects to. -/
def serversOffset (workerRank : ℕ) : ℕ := n.clientWorkerRank workerRank % n.numNetBenchServers

/-- A client thread. -/
abbrev Client : Type := Fin n.numConns

/-- The rank of a client thread among all workers. -/
def workerRank (c : n.Client) : ℕ := n.numNetBenchServers * n.numThreads + c

/-- The server of a client thread. -/
def serverOf (c : n.Client) : Fin n.numNetBenchServers :=
  ⟨n.serversOffset (n.workerRank c), Nat.mod_lt _ n.numNetBenchServers_pos⟩

/-- The connections that the clients make to a server. -/
def numConnsTo (h : Fin n.numNetBenchServers) : ℕ :=
  (Finset.univ.filter fun c : n.Client => n.serverOf c = h).card

variable {n}

theorem numConns_add_lt :
    n.numNetBenchServers * n.numThreads + n.numConns < Word64.size := by
  have h := n.numWorkers_lt
  rw [Nat.mul_add, Nat.mul_comm n.numThreads, Nat.mul_comm n.numThreads] at h
  exact h

theorem numConns_pos : 0 < n.numConns := Nat.mul_pos n.numClientHosts_pos n.numThreads_pos

theorem hostIndex_eq (h : Fin n.numNetBenchServers) : n.hostIndex h = h := by
  have hle : h.val * n.numThreads ≤ n.numNetBenchServers * n.numThreads :=
    Nat.mul_le_mul_right _ h.isLt.le
  have hlt := n.numConns_add_lt
  rw [hostIndex, rankOffset, Word64.mul_eq (by omega), Nat.mul_div_cancel _ n.numThreads_pos]

theorem numClients_eq : n.numClients = n.numClientHosts := by
  have hle : n.numNetBenchServers + n.numClientHosts ≤
      n.numThreads * (n.numNetBenchServers + n.numClientHosts) :=
    Nat.le_mul_of_pos_left _ n.numThreads_pos
  have hlt := n.numWorkers_lt
  rw [numClients, numDataSetThreads, Word64.mul_eq hlt, Nat.mul_div_cancel_left _ n.numThreads_pos,
    Word64.sub_eq (Nat.le_add_right _ _) (by omega), Nat.add_sub_cancel_left]

theorem numConnsTotal_eq : n.numConnsTotal = n.numConns % 2 ^ 32 := by
  have hlt := n.numConns_add_lt
  rw [numConnsTotal, numClients_eq, Word64.mul_eq]
  · rfl
  · show n.numConns < Word64.size
    omega

theorem serverOf_val (c : n.Client) : (n.serverOf c).val = c.val % n.numNetBenchServers := by
  have hlt := n.numConns_add_lt
  have hc := c.isLt
  show n.serversOffset (n.numNetBenchServers * n.numThreads + c) = _
  rw [serversOffset, clientWorkerRank, Word64.mul_eq (by omega),
    Word64.sub_eq (Nat.le_add_right _ _) (by omega), Nat.add_sub_cancel_left]

/-- What party `h` of `k` gets of `x`, if the first ones get one more. -/
def share (x k h : ℕ) : ℕ := x / k + if h < x % k then 1 else 0

/-- **Equal shares are shares of the same number.** -/
theorem eq_of_share_eq {x y k : ℕ} (hk : 0 < k) (h : ∀ i < k, share x k i = share y k i) :
    x = y := by
  have hx := Nat.div_add_mod x k
  have hy := Nat.div_add_mod y k
  have hxlt := Nat.mod_lt x hk
  have hylt := Nat.mod_lt y hk
  -- the last party never gets one more
  have hdiv : x / k = y / k := by
    have hlast := h (k - 1) (by omega)
    unfold share at hlast
    rw [if_neg (by omega), if_neg (by omega)] at hlast
    omega
  have hmod : x % k = y % k := by
    by_contra hne
    rcases Nat.lt_or_gt_of_ne hne with hlt | hlt
    · have hshare := h (x % k) hxlt
      unfold share at hshare
      rw [if_neg (lt_irrefl _), if_pos hlt] at hshare
      omega
    · have hshare := h (y % k) hylt
      unfold share at hshare
      rw [if_pos hlt, if_neg (lt_irrefl _)] at hshare
      omega
  rw [← hx, ← hy, hdiv, hmod]

theorem numConnsToWaitFor_eq_share (h : Fin n.numNetBenchServers) :
    n.numConnsToWaitFor h = share (n.numConns % 2 ^ 32) n.numNetBenchServers h := by
  rw [numConnsToWaitFor, numConnsTotal_eq, hostIndex_eq, share]
  congr 1
  split_ifs <;> omega

theorem numConnsTo_eq_share (h : Fin n.numNetBenchServers) :
    n.numConnsTo h = share n.numConns n.numNetBenchServers h := by
  have hcount : n.numConnsTo h =
      Nat.count (fun c => c ≡ h [MOD n.numNetBenchServers]) n.numConns := by
    rw [Nat.count_eq_card_filter_range, numConnsTo]
    refine Finset.card_bij (fun c _ => c.val) (fun c hc => ?_) (fun c _ d _ heq => Fin.ext heq) ?_
    · rw [Finset.mem_filter] at hc ⊢
      refine ⟨Finset.mem_range.mpr c.isLt, ?_⟩
      rw [Nat.ModEq, ← serverOf_val, hc.2, Nat.mod_eq_of_lt h.isLt]
    · intro i hi
      rw [Finset.mem_filter, Finset.mem_range] at hi
      refine ⟨⟨i, hi.1⟩, ?_, rfl⟩
      rw [Finset.mem_filter]
      refine ⟨Finset.mem_univ _, Fin.ext ?_⟩
      have hmod : i % n.numNetBenchServers = h.val % n.numNetBenchServers := hi.2
      rw [serverOf_val]
      rwa [Nat.mod_eq_of_lt h.isLt] at hmod
  rw [hcount, Nat.count_modEq_card _ n.numNetBenchServers_pos, Nat.mod_eq_of_lt h.isLt, share]

/-- **Each server waits for the connections that are made to it exactly if their number is an
`unsigned`.** -/
theorem numConnsToWaitFor_eq_iff :
    (∀ h : Fin n.numNetBenchServers, n.numConnsToWaitFor h = n.numConnsTo h) ↔
      n.numConns < 2 ^ 32 := by
  constructor
  · intro hall
    have heq : n.numConns % 2 ^ 32 = n.numConns := by
      refine eq_of_share_eq n.numNetBenchServers_pos fun i hi => ?_
      have hi' := hall ⟨i, hi⟩
      rwa [numConnsToWaitFor_eq_share, numConnsTo_eq_share] at hi'
    rw [← heq]
    exact Nat.mod_lt _ (by decide)
  · intro hlt h
    rw [numConnsToWaitFor_eq_share, numConnsTo_eq_share, Nat.mod_eq_of_lt hlt]

end NetBenchHosts

/-! ## The sockets of a server thread -/

section EveryNth

variable {α : Type*}

/-- The sockets that the loop from `localWorkerRank` on in steps of `numThreads` collects; `skip`
is the distance to the next one. -/
def everyNth (numThreads : ℕ) : ℕ → List α → List α
  | _, [] => []
  | 0, x :: xs => x :: everyNth numThreads (numThreads - 1) xs
  | skip + 1, _ :: xs => everyNth numThreads skip xs

variable {numThreads : ℕ}

theorem everyNth_sublist (skip : ℕ) (xs : List α) :
    (everyNth numThreads skip xs).Sublist xs := by
  induction xs generalizing skip with
  | nil =>
    rw [everyNth]
  | cons x xs ih =>
    cases skip with
    | zero => exact (ih _).cons_cons x
    | succ skip => exact (ih skip).cons x

/-- **Each accepted connection is served by one thread.** -/
theorem existsUnique_mem_everyNth (hpos : 0 < numThreads) {xs : List α} (hnodup : xs.Nodup)
    {c : α} (hc : c ∈ xs) : ∃! k, k < numThreads ∧ c ∈ everyNth numThreads k xs := by
  induction xs with
  | nil => exact absurd hc (by simp)
  | cons x xs ih =>
    rw [List.nodup_cons] at hnodup
    rcases List.mem_cons.mp hc with rfl | hmem
    · refine ⟨0, ⟨hpos, List.mem_cons_self⟩, ?_⟩
      rintro k ⟨-, hk⟩
      cases k with
      | zero => rfl
      | succ k => exact absurd ((everyNth_sublist k xs).subset hk) hnodup.1
    · obtain ⟨k, ⟨hlt, hk⟩, hunique⟩ := ih hnodup.2 hmem
      have hne : c ≠ x := by
        rintro rfl
        exact hnodup.1 hmem
      -- a thread comes one socket later, and the last one starts over
      have hhead : c ∈ everyNth numThreads 0 (x :: xs) ↔ k = numThreads - 1 := by
        rw [everyNth, List.mem_cons]
        constructor
        · rintro (heq | hmem')
          · exact absurd heq hne
          · exact (hunique _ ⟨by omega, hmem'⟩).symm
        · rintro rfl
          exact Or.inr hk
      by_cases hlast : k = numThreads - 1
      · refine ⟨0, ⟨hpos, hhead.mpr hlast⟩, ?_⟩
        rintro k' ⟨hlt', hk'⟩
        cases k' with
        | zero => rfl
        | succ k' =>
          have := hunique k' ⟨by omega, hk'⟩
          omega
      · refine ⟨k + 1, ⟨by omega, hk⟩, ?_⟩
        rintro k' ⟨hlt', hk'⟩
        cases k' with
        | zero => exact absurd (hhead.mp hk') hlast
        | succ k' => rw [hunique k' ⟨by omega, hk'⟩]

end EveryNth

end Elbencho

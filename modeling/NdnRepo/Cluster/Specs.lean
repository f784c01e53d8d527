import NdnRepo.Cluster.Erasure
import NdnRepo.Cluster.Msg
import NdnRepo.Cluster.Network

/-!
# The erasure parameters of a job

A job announced with parameters `(k, n)` goes over the wire, is read as a redundancy of
`n - k` and clamped.  With `k < n` a node adopts `(k, n)`.  A redundancy of 0 is raised
to 1, and a job with a zero parameter is read as a plain one (`spec_after_job`).

Nothing compares `n` with what the codec can do.  What every view knows of its
parameters is that `k` is positive, at most `n`, and both are of 16 bits
(`SpecsFit`).  The codec makes such an object if `n` is at most 255 (`SpecHolds`).
-/

namespace NdnRepo.Cluster

open Coding Rank

namespace ClusterState

variable {Name κ : Type} [LinearOrder Name]

/-- The views that observations lead to. -/
inductive Reachable : ClusterState Name κ → Prop where
  | new (config : ClusterConfig κ) : Reachable (.new config)
  | heartbeat {s : ClusterState Name κ} (h : Reachable s) (node : Name) (used total now : ℕ) :
      Reachable (s.observeHeartbeat node used total now)
  | job {s : ClusterState Name κ} (h : Reachable s) (job : Name) (replicationFactor : ℕ) :
      Reachable (s.observeJob job replicationFactor)
  | erasureJob {s : ClusterState Name κ} (h : Reachable s) (job : Name) {k redundancy : ℕ}
      (hk : k ≤ u16Max) : Reachable (s.observeErasureJob job k redundancy)
  | claim {s : ClusterState Name κ} (h : Reachable s) (job node : Name) (ts : ℕ) :
      Reachable (s.observeClaim job node ts)
  | release {s : ClusterState Name κ} (h : Reachable s) (job node : Name) :
      Reachable (s.observeRelease job node)

/-- The erasure parameters of a view are positive, in order, and of 16 bits. -/
def SpecsFit (s : ClusterState Name κ) : Prop :=
  ∀ job k n, s.erasure job = some (k, n) → 1 ≤ k ∧ k ≤ n ∧ n ≤ u16Max

theorem erasure_observeClaim (s : ClusterState Name κ) (job node : Name) (ts : ℕ) :
    (s.observeClaim job node ts).erasure = s.erasure := by
  funext other
  rcases eq_or_ne other job with rfl | h
  · cases hj : s.jobs.lookup other <;> simp [erasure, observeClaim, hj]
  · simp [erasure, observeClaim, AList.lookup_insert_ne h]

theorem erasure_observeRelease (s : ClusterState Name κ) (job node : Name) :
    (s.observeRelease job node).erasure = s.erasure :=
  funext fun other => (s.replication_observeRelease job node other).2

/-- Clamped parameters fit. -/
theorem SpecsFit.observeErasureJob {s : ClusterState Name κ} (h : s.SpecsFit) (job : Name)
    {k redundancy : ℕ} (hk : k ≤ u16Max) : (s.observeErasureJob job k redundancy).SpecsFit := by
  intro other k' n' hspec
  rw [erasure_observeErasureJob] at hspec
  split at hspec
  next =>
    cases hspec
    simp only [u16Max] at hk ⊢
    omega
  next => exact h other k' n' hspec

/-- The parameters of every view fit. -/
theorem Reachable.specsFit {s : ClusterState Name κ} (h : s.Reachable) : s.SpecsFit := by
  induction h with
  | new config => exact fun job k n hspec => by cases hspec
  | heartbeat h node used total now ih => exact ih
  | job h job replicationFactor ih =>
      intro other k n hspec
      rw [erasure_observeJob] at hspec
      exact ih other k n hspec
  | erasureJob h job hk ih => exact ih.observeErasureJob job hk
  | claim h job node ts ih =>
      intro other k n hspec
      rw [erasure_observeClaim] at hspec
      exact ih other k n hspec
  | release h job node ih =>
      intro other k n hspec
      rw [erasure_observeRelease] at hspec
      exact ih other k n hspec

/-- What a node hears leads to such a view. -/
theorem Reachable.observe {s : ClusterState Name κ} (h : s.Reachable) (now : ℕ) :
    ∀ {msg : ClusterMsg Name}, (∀ target repl k n, msg = .job target repl (some (k, n)) →
      k ≤ u16Max) → (s.observe msg now).Reachable
  | .heartbeat node used total _, _ => h.heartbeat node used total now
  | .job target repl none, _ => Reachable.job h target repl
  | .job target repl (some (k, n)), hspec => h.erasureJob target (hspec target repl k n rfl)
  | .claim job' node ts, _ => h.claim job' node ts
  | .release job' node, _ => h.release job' node

/-- So does what it does at a tick. -/
theorem Reachable.tick [Utilization κ] {node : ClusterNode Name κ} (h : node.state.Reachable)
    (now : ℕ) : (node.tick now).2.state.Reachable := by
  have hfold : ∀ (msgs : List (ClusterMsg Name)) (s : ClusterState Name κ),
      (∀ msg ∈ msgs, (msg.sender).isSome) → s.Reachable →
        (msgs.foldl (fun s msg => s.observe msg now) s).Reachable := by
    intro msgs
    induction msgs with
    | nil => exact fun s _ hs => hs
    | cons msg msgs ih =>
        intro s hsender hs
        refine ih _ (fun m hm => hsender m (List.mem_cons_of_mem _ hm)) (hs.observe now ?_)
        rintro target repl k n rfl
        cases hsender _ (List.mem_cons_self ..)
  rw [ClusterNode.tick_state]
  refine hfold _ _ (fun msg hmsg => ?_) h
  rw [node.sender_of_mem_publish now hmsg]
  rfl

/-! ## Shard plans -/

/-- A plan is of the job's parameters, and its shard is one of theirs. -/
theorem shardPlan_index_lt [Utilization κ] {s : ClusterState Name κ} {job node : Name} {now : ℕ}
    {plan : ShardPlan} (h : s.shardPlan job node now = some plan) :
    s.erasure job = some (plan.k, plan.n) ∧ plan.index < plan.n := by
  rw [shardPlan_eq] at h
  obtain ⟨⟨k, n⟩, hspec, hplan⟩ := Option.bind_eq_some_iff.mp h
  obtain ⟨index, hindex, rfl⟩ := Option.map_eq_some_iff.mp hplan
  refine ⟨hspec, ?_⟩
  rw [shardIndexOf_eq] at hindex
  split at hindex
  next hfirst =>
    cases hindex
    exact (Nat.mod_le _ _).trans_lt (mem_first.mp hfirst).2
  next => cases hindex

end ClusterState

/-! ## Announced parameters -/

section Announced

variable {Name κ : Type} [NdnName Name]

/-- What the manifest of an object says of its parameters. -/
theorem encodeObject_params [Sha2] [Codec UInt8] {object : Name} {data : Bytes}
    {k redundancy : ℕ} {shards : List (Shard Name)} {manifest : ErasureManifest Name}
    (h : encodeObject object data k redundancy = .ok (shards, manifest)) :
    manifest.k = k ∧ manifest.n = k + redundancy := by
  simp only [encodeObject] at h
  split at h
  next =>
    cases hcoded : codeword k (k + redundancy) (sourceSegments data k) with
    | error e => rw [hcoded] at h; cases h
    | ok coded => rw [hcoded] at h; cases h; exact ⟨rfl, rfl⟩
  next => cases h

/-- What holds of a job's parameters in a view: its shard plans are within them, and an
object is coded with them exactly if there are at most 255 shards. -/
structure SpecHolds [Utilization κ] [Sha2] [Codec UInt8] (s : ClusterState Name κ) (job : Name)
    (k n : ℕ) : Prop where
  /-- They are positive, in order, and of 16 bits. -/
  fits : 1 ≤ k ∧ k ≤ n ∧ n ≤ u16Max
  /-- A shard plan is of these parameters, with an index below `n`. -/
  plan : ∀ node now plan, s.shardPlan job node now = some plan →
    plan.k = k ∧ plan.n = n ∧ plan.index < n
  /-- Objects of up to 255 shards are coded, and their manifests have the parameters. -/
  coded : n ≤ 255 → Lawful UInt8 k n → ∀ (object : Name) (data : Bytes), ∃ shards manifest,
    encodeObject object data k (n - k) = .ok (shards, manifest) ∧ manifest.k = k ∧ manifest.n = n
  /-- Others are refused. -/
  refused : 255 < n → ∀ (object : Name) (data : Bytes),
    encodeObject object data k (n - k) = .error (.invalidParameters k k)

/-- It holds of the parameters of every view. -/
theorem ClusterState.SpecsFit.specHolds [Utilization κ] [Sha2] [Codec UInt8]
    {s : ClusterState Name κ} (h : s.SpecsFit) {job : Name} {k n : ℕ}
    (hspec : s.erasure job = some (k, n)) : SpecHolds s job k n := by
  obtain ⟨hk, hkn, hn⟩ := h job k n hspec
  have hsum : k + (n - k) = n := by omega
  refine ⟨⟨hk, hkn, hn⟩, fun node now plan hplan => ?_, fun hsmall law object data => ?_,
    fun hlarge object data => ?_⟩
  · obtain ⟨hsame, hindex⟩ := ClusterState.shardPlan_index_lt hplan
    rw [hspec] at hsame
    cases hsame
    exact ⟨rfl, rfl, hindex⟩
  · rw [← hsum] at law
    obtain ⟨coded, -, -, hok⟩ := encodeObject_eq_ok law hk (by omega) object data
    obtain ⟨hk', hn'⟩ := encodeObject_params hok
    exact ⟨_, _, hok, hk', hn'.trans hsum⟩
  · rw [encodeObject, if_neg (by omega)]

variable [NdnTlvWriter] [NameTlvWriter Name]

/-- A job is adopted with its parameters if `k < n`, with a redundancy of 1 if not, and
without parameters if one is zero. -/
theorem observe_job {s : ClusterState Name κ} (hs : s.Reachable) (target : Name) {repl k n : ℕ}
    (hrepl : repl < 2 ^ 64) (hk : k ≤ u16Max) (hn : n ≤ u16Max)
    (hlen : (ClusterMsg.job target repl (some (k, n))).encode.length < 2 ^ 64) (now : ℕ) :
    ∃ msg, ClusterMsg.decode (ClusterMsg.job target repl (some (k, n))).encode = some msg ∧
      let s' := s.observe msg now
      s'.Reachable ∧
      (s'.erasure target = if k = 0 ∨ n = 0 then s.erasure target
        else some (k, min (k + max (n - k) 1) u16Max)) ∧
      (1 ≤ k → k < n → s'.erasure target = some (k, n)) := by
  have hread := ClusterMsg.decode_erasureJob (ClusterMsg.encode_rearranged _) hrepl
    (Nat.lt_succ_of_le hk) (Nat.lt_succ_of_le hn) hlen
  refine ⟨_, hread, ?_⟩
  intro s'
  have hreach : s'.Reachable := by
    refine hs.observe now fun target' repl' k' n' hmsg => ?_
    split at hmsg
    next => cases hmsg; exact hk
    next => cases hmsg
  have hspec : s'.erasure target = if k = 0 ∨ n = 0 then s.erasure target
      else some (k, min (k + max (n - k) 1) u16Max) := by
    split
    next hzero =>
      have hplain : ¬(k ≠ 0 ∧ n ≠ 0) := fun h => hzero.elim h.1 h.2
      simp only [s', if_neg hplain, ClusterState.observe, ClusterState.erasure_observeJob]
    next hpos =>
      obtain ⟨hk0, hn0⟩ := not_or.mp hpos
      have hmax : max k 1 = k := by omega
      simp only [s', if_pos (And.intro hk0 hn0), ClusterState.observe,
        ClusterState.erasure_observeErasureJob, if_true, hmax]
  refine ⟨hreach, hspec, fun hk1 hkn => ?_⟩
  have hclamp : min (k + max (n - k) 1) u16Max = n := by omega
  rw [hspec, if_neg (by omega), hclamp]

/-- Whatever led to a view, its parameters are in order and its plans within them, and it
adopts a job with the job's parameters, clamped. -/
theorem spec_after_job [Utilization κ] [Sha2] [Codec UInt8] {s : ClusterState Name κ}
    (hs : s.Reachable) :
    (∀ job k n, s.erasure job = some (k, n) → SpecHolds s job k n) ∧
    ∀ (target : Name) (repl k n now : ℕ), repl < 2 ^ 64 → k ≤ u16Max → n ≤ u16Max →
      (ClusterMsg.job target repl (some (k, n))).encode.length < 2 ^ 64 →
      ∃ msg, ClusterMsg.decode (ClusterMsg.job target repl (some (k, n))).encode = some msg ∧
        let s' := s.observe msg now
        s'.Reachable ∧
        (s'.erasure target = if k = 0 ∨ n = 0 then s.erasure target
          else some (k, min (k + max (n - k) 1) u16Max)) ∧
        (1 ≤ k → k < n → s'.erasure target = some (k, n)) ∧
        ∀ job k n, s'.erasure job = some (k, n) → SpecHolds s' job k n := by
  refine ⟨fun job k n hjob => hs.specsFit.specHolds hjob, ?_⟩
  intro target repl k n now hrepl hk hn hlen
  obtain ⟨msg, hread, hreach, hspec, hkept⟩ := observe_job hs target hrepl hk hn hlen now
  exact ⟨msg, hread, hreach, hspec, hkept, fun job k n hjob => hreach.specsFit.specHolds hjob⟩

end Announced

/-- The name of one generic component. -/
def shortName : TypedName := [(8, ascii "a")]

/-- A view of nothing. -/
def blankView : ClusterState TypedName ℚ := .new ⟨1, 5000000000, 3, 3 / 4⟩

theorem spec_after_job_pair :
    letI := blockTlvWriter
    ∃ msg, ClusterMsg.decode (ClusterMsg.job shortName 0 (some (2, 3))).encode = some msg ∧
      (blankView.observe msg 0).erasure shortName = some (2, 3) := by
  let _ := blockTlvWriter
  let _ := Network.exactUtilization
  let _ := shortSha2
  let _ := xorCodec
  have hblank : blankView.Reachable := .new _
  obtain ⟨msg, hread, -, -, hspec, -⟩ := (spec_after_job hblank).2 shortName 0 2 3 0
    (by decide) (by decide) (by decide) (by decide +kernel)
  exact ⟨msg, hread, hspec (by decide) (by decide)⟩

/-- A job without redundancy is adopted with a shard more than the codec makes, and one
with more shards than the codec makes is adopted too. -/
theorem spec_not_kept :
    letI := blockTlvWriter
    letI := shortSha2
    letI := xorCodec
    (∃ msg, ClusterMsg.decode (ClusterMsg.job shortName 0 (some (2, 2))).encode = some msg ∧
      (blankView.observe msg 0).erasure shortName = some (2, 3)) ∧
    (∃ msg, ClusterMsg.decode (ClusterMsg.job shortName 0 (some (200, 300))).encode = some msg ∧
      (blankView.observe msg 0).erasure shortName = some (200, 300)) ∧
    (∃ shards manifest, encodeObject shortName [1, 2] 2 0 = .ok (shards, manifest) ∧
      manifest.n = 2) ∧
    encodeObject shortName [1, 2] 200 100 = .error (.invalidParameters 200 200) := by
  refine ⟨⟨.job shortName 0 (some (2, 2)), ?_, ?_⟩,
    ⟨.job shortName 0 (some (200, 300)), ?_, ?_⟩, ⟨_, _, rfl, ?_⟩, rfl⟩
  all_goals decide +kernel

end NdnRepo.Cluster

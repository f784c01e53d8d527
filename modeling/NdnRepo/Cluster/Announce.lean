import NdnRepo.Cluster.Known
import NdnRepo.Lib.Grouping

/-!
# Announcements in any order

A plain announcement sets a job's own factor, unless it is zero.  An erasure-coded one
sets its parameters, clamped.  Neither is compared with what was set before, so a job
ends with the factor and the parameters announced last (`settings_observeAll`).

Nodes that hear the announcements of a job in different orders agree on it if the
announcements do: on the parameters, and on the factor where no parameters override it.
Otherwise some two of them do not (`announcements_commute_iff`).
-/

namespace NdnRepo.Cluster

open Grouping

variable {Name κ : Type} [LinearOrder Name]

/-- What an announcement of a job carries: a factor, and parameters if it is
erasure-coded. -/
abbrev JobSpec := ℕ × Option (ℕ × ℕ)

namespace JobSpec

/-- The factor a plain announcement sets. -/
def factor : JobSpec → Option ℕ
  | (repl, none) => if repl ≠ 0 then some repl else none
  | (_, some _) => none

/-- The parameters an erasure-coded announcement sets. -/
def params : JobSpec → Option (ℕ × ℕ)
  | (_, none) => none
  | (_, some (k, n)) => some (max k 1, min (max k 1 + max (n - k) 1) u16Max)

theorem factor_ne_zero {spec : JobSpec} {f : ℕ} (h : spec.factor = some f) : f ≠ 0 := by
  obtain ⟨repl, erasure⟩ := spec
  cases erasure with
  | none =>
      rw [factor] at h
      split at h
      next hrepl => exact Option.some.inj h ▸ hrepl
      next => cases h
  | some kn => cases h

end JobSpec

/-- What a message announces of a job. -/
def ClusterMsg.announces (target : Name) : ClusterMsg Name → Option JobSpec
  | .job other repl erasure => if other = target then some (repl, erasure) else none
  | _ => none

/-- Fold messages into a node's view, each at its time. -/
def ClusterNode.observeAll (node : ClusterNode Name κ) (heard : List (ClusterMsg Name × ℕ)) :
    ClusterNode Name κ :=
  heard.foldl (fun node m => node.observe m.1 m.2) node

/-- The announcements of a job, in some order, with claims and releases between them. -/
structure Interleaved (target : Name) (specs : List JobSpec) (heard : List (ClusterMsg Name × ℕ)) :
    Prop where
  /-- These are announced. -/
  announced : (heard.filterMap fun m => m.1.announces target).Perm specs
  /-- All else is a claim or a release. -/
  between : ∀ m ∈ heard, (∃ spec : JobSpec, m.1 = .job target spec.1 spec.2) ∨
    (∃ job node ts, m.1 = .claim job node ts) ∨ ∃ job node, m.1 = .release job node

namespace ClusterState

variable (s : ClusterState Name κ)

/-- The record of a job, with the defaults if the job is not known. -/
def record (job : Name) : Job Name := (s.jobs.lookup job).getD {}

/-- The settings in the record of a job: its own factor and its erasure parameters. -/
def settings (job : Name) : JobSpec := ((s.record job).replicationFactor, (s.record job).erasure)

/-- Two views have the same effective replication and erasure parameters for a job. -/
structure AgreeOn (target : Name) (s s' : ClusterState Name κ) : Prop where
  /-- They place as many replicas. -/
  replication :
    s.effectiveReplication (s.record target) = s'.effectiveReplication (s'.record target)
  /-- They code the object alike. -/
  erasure : (s.record target).erasure = (s'.record target).erasure

/-- The announcements of a job agree: on the parameters, and on the factor where neither
they nor the view have parameters. -/
structure Unanimous (target : Name) (specs : List JobSpec) : Prop where
  /-- All parameters are the same. -/
  params : ∀ p ∈ specs.filterMap JobSpec.params, ∀ p' ∈ specs.filterMap JobSpec.params, p = p'
  /-- So are all factors, if there are no parameters. -/
  factor : (s.record target).erasure = none → specs.filterMap JobSpec.params = [] →
    ∀ f ∈ specs.filterMap JobSpec.factor, ∀ f' ∈ specs.filterMap JobSpec.factor, f = f'

/-- A job's settings after some announcements: the factor and the parameters announced
last, or those it had. -/
def settingsAfter (job : Name) (specs : List JobSpec) : JobSpec :=
  ((lastSome JobSpec.factor specs).getD (s.settings job).1,
    (lastSome JobSpec.params specs).or (s.settings job).2)

/-- Two orders of announcements come to the same replication and parameters. -/
def SameAfter (job : Name) (specs specs' : List JobSpec) : Prop :=
  replicationOf s.config (s.settingsAfter job specs) =
      replicationOf s.config (s.settingsAfter job specs') ∧
    (s.settingsAfter job specs).2 = (s.settingsAfter job specs').2

/-! ## What the announcements come to -/

theorem settings_eq_spec (job : Name) : s.settings job = (s.spec job).getD (0, none) := by
  rw [settings, record, spec]
  cases s.jobs.lookup job <;> rfl

theorem effectiveReplication_record (job : Name) :
    s.effectiveReplication (s.record job) = replicationOf s.config (s.settings job) := by
  simp only [settings, effectiveReplication, replicationOf]
  cases (s.record job).erasure <;> rfl

/-- Agreement on a job is agreement on what its settings come to. -/
theorem agreeOn_iff {target : Name} {s s' : ClusterState Name κ} :
    AgreeOn target s s' ↔
      replicationOf s.config (s.settings target) = replicationOf s'.config (s'.settings target) ∧
        (s.settings target).2 = (s'.settings target).2 := by
  rw [← effectiveReplication_record, ← effectiveReplication_record]
  exact ⟨fun h => ⟨h.replication, h.erasure⟩, fun h => ⟨h.1, h.2⟩⟩

/-- A message changes a job's settings by what it announces of the job. -/
theorem settings_observe (target : Name) (msg : ClusterMsg Name) (now : ℕ) :
    (s.observe msg now).settings target =
      (((msg.announces target).bind JobSpec.factor).getD (s.settings target).1,
        ((msg.announces target).bind JobSpec.params).or (s.settings target).2) := by
  rw [settings_eq_spec, settings_eq_spec]
  cases msg with
  | heartbeat node used total epoch => rfl
  | job job repl erasure =>
      rw [ClusterMsg.announces]
      cases erasure with
      | none =>
          rw [observe, spec_observeJob]
          by_cases hjob : target = job
          · by_cases hrepl : repl = 0 <;> simp [hjob, hrepl, JobSpec.factor, JobSpec.params]
          · simp [hjob, Ne.symm hjob]
      | some kn =>
          rw [observe, spec_observeErasureJob]
          by_cases hjob : target = job
          · simp [hjob, JobSpec.factor, JobSpec.params]
          · simp [hjob, Ne.symm hjob]
  | claim job node ts =>
      rw [observe, spec_observeClaim]
      by_cases hjob : target = job <;> simp [hjob, ClusterMsg.announces]
  | release job node =>
      rw [observe, spec_observeRelease]
      rfl

/-- Orders of the announcements all come to the same exactly if the announcements agree. -/
theorem sameAfter_iff_unanimous (target : Name) (specs : List JobSpec) :
    (∀ order order' : List JobSpec, order.Perm specs → order'.Perm specs →
      s.SameAfter target order order') ↔ s.Unanimous target specs := by
  constructor
  · intro hsame
    refine ⟨fun p hp p' hp' => ?_, fun hplain hnone f hf f' hf' => ?_⟩
    · obtain ⟨order, hperm, hlast⟩ := exists_perm_lastSome hp
      obtain ⟨order', hperm', hlast'⟩ := exists_perm_lastSome hp'
      obtain ⟨-, hparams⟩ := hsame order order' hperm hperm'
      rw [settingsAfter, settingsAfter, hlast, hlast'] at hparams
      exact Option.some.inj hparams
    · have hparams : ∀ order : List JobSpec, order.Perm specs →
          lastSome JobSpec.params order = none := fun order h =>
        lastSome_eq_none.mpr ((hnone ▸ h.filterMap JobSpec.params).eq_nil)
      obtain ⟨order, hperm, hlast⟩ := exists_perm_lastSome hf
      obtain ⟨order', hperm', hlast'⟩ := exists_perm_lastSome hf'
      obtain ⟨hreplication, -⟩ := hsame order order' hperm hperm'
      have hsettings : (s.settings target).2 = none := hplain
      rw [settingsAfter, settingsAfter, hlast, hlast', hparams order hperm,
        hparams order' hperm', hsettings] at hreplication
      obtain ⟨spec, -, hspec⟩ := List.mem_filterMap.mp hf
      obtain ⟨spec', -, hspec'⟩ := List.mem_filterMap.mp hf'
      have hzero := JobSpec.factor_ne_zero hspec
      have hzero' := JobSpec.factor_ne_zero hspec'
      simpa [replicationOf, hzero, hzero'] using hreplication
  · intro hone order order' hperm hperm'
    have hparams : lastSome JobSpec.params order = lastSome JobSpec.params order' := by
      refine lastSome_eq_of_perm (hperm.trans hperm'.symm) fun p hp p' hp' => ?_
      exact hone.params p ((hperm.filterMap _).mem_iff.mp hp) p'
        ((hperm.filterMap _).mem_iff.mp hp')
    refine ⟨?_, by rw [settingsAfter, settingsAfter, hparams]⟩
    rw [settingsAfter, settingsAfter, hparams]
    -- A factor matters only where there are no parameters.
    cases hlast : (lastSome JobSpec.params order').or (s.settings target).2 with
    | some kn => rfl
    | none =>
        obtain ⟨hnone, hplain⟩ := Option.or_eq_none_iff.mp hlast
        have hempty : specs.filterMap JobSpec.params = [] :=
          (lastSome_eq_none.mp hnone ▸ hperm'.filterMap JobSpec.params).nil_eq.symm
        have hfactor : lastSome JobSpec.factor order = lastSome JobSpec.factor order' := by
          refine lastSome_eq_of_perm (hperm.trans hperm'.symm) fun f hf f' hf' => ?_
          exact hone.factor hplain hempty f ((hperm.filterMap _).mem_iff.mp hf) f'
            ((hperm.filterMap _).mem_iff.mp hf')
        rw [hfactor]

end ClusterState

namespace ClusterNode

variable (node : ClusterNode Name κ)

/-- After some messages a job has the settings their announcements come to. -/
theorem settings_observeAll (target : Name) (heard : List (ClusterMsg Name × ℕ)) :
    (node.observeAll heard).state.config = node.state.config ∧
      (node.observeAll heard).state.settings target =
        node.state.settingsAfter target (heard.filterMap fun m => m.1.announces target) := by
  induction heard using List.reverseRecOn with
  | nil => exact ⟨rfl, rfl⟩
  | append_singleton heard m ih =>
      obtain ⟨hconfig, hsettings⟩ := ih
      have hlast : node.observeAll (heard ++ [m]) = (node.observeAll heard).observe m.1 m.2 :=
        List.foldl_append
      rw [hlast]
      refine ⟨(ClusterState.config_observe m.1 m.2).trans hconfig, ?_⟩
      rw [observe, ClusterState.settings_observe, hsettings]
      cases h : m.1.announces target with
      | none => simp [h, ClusterState.settingsAfter]
      | some spec => simp [h, lastSome_concat, Option.or_assoc, ClusterState.settingsAfter]

/-- Nodes that heard some messages agree on a job if the announcements in the two orders
come to the same. -/
theorem agreeOn_observeAll_iff (target : Name) (heard heard' : List (ClusterMsg Name × ℕ)) :
    ClusterState.AgreeOn target (node.observeAll heard).state (node.observeAll heard').state ↔
      node.state.SameAfter target (heard.filterMap fun m => m.1.announces target)
        (heard'.filterMap fun m => m.1.announces target) := by
  obtain ⟨hconfig, hset⟩ := node.settings_observeAll target heard
  obtain ⟨hconfig', hset'⟩ := node.settings_observeAll target heard'
  rw [ClusterState.agreeOn_iff, hconfig, hconfig', hset, hset', ClusterState.SameAfter]

end ClusterNode

/-- The announcements can be heard in any order. -/
theorem exists_interleaved (target : Name) {specs order : List JobSpec}
    (horder : order.Perm specs) :
    ∃ heard, Interleaved target specs heard ∧
      (heard.filterMap fun m => m.1.announces target) = order := by
  let heard := order.map fun spec => (ClusterMsg.job target spec.1 spec.2, 0)
  have hannounced : (heard.filterMap fun m => m.1.announces target) = order := by
    simp [heard, List.filterMap_map, ClusterMsg.announces]
  refine ⟨heard, ⟨hannounced ▸ horder, fun m hm => ?_⟩, hannounced⟩
  obtain ⟨spec, -, rfl⟩ := List.mem_map.mp hm
  exact .inl ⟨spec, rfl⟩

/-- Nodes that hear the announcements of a job in any two orders, with any claims and
releases between them, agree on the job exactly if the announcements do. -/
theorem announcements_commute_iff (node : ClusterNode Name κ) (target : Name)
    (specs : List JobSpec) :
    (∀ heard heard', Interleaved target specs heard → Interleaved target specs heard' →
      ClusterState.AgreeOn target (node.observeAll heard).state (node.observeAll heard').state) ↔
    node.state.Unanimous target specs := by
  rw [← ClusterState.sameAfter_iff_unanimous]
  constructor
  · intro hagree order order' hperm hperm'
    obtain ⟨heard, hheard, rfl⟩ := exists_interleaved target hperm
    obtain ⟨heard', hheard', rfl⟩ := exists_interleaved target hperm'
    exact (node.agreeOn_observeAll_iff target heard heard').mp (hagree heard heard' hheard hheard')
  · intro hsame heard heard' hheard hheard'
    exact (node.agreeOn_observeAll_iff target heard heard').mpr
      (hsame _ _ hheard.announced hheard'.announced)

/-- A node that has heard nothing. -/
def silentNode : ClusterNode ℕ ℚ := .new 0 ⟨3, 5000000000, 3, 3 / 4⟩ 1000

/-- Two factors, or two sets of parameters, heard in two orders. -/
theorem announcements_diverge :
    (∃ heard heard', Interleaved 7 [(1, none), (2, none)] heard ∧
      Interleaved 7 [(1, none), (2, none)] heard' ∧
      ¬ClusterState.AgreeOn 7 (silentNode.observeAll heard).state
        (silentNode.observeAll heard').state) ∧
    ∃ heard heard', Interleaved 7 [(0, some (2, 3)), (0, some (4, 6))] heard ∧
      Interleaved 7 [(0, some (2, 3)), (0, some (4, 6))] heard' ∧
      ¬ClusterState.AgreeOn 7 (silentNode.observeAll heard).state
        (silentNode.observeAll heard').state := by
  refine ⟨⟨[(.job 7 1 none, 10), (.claim 7 1 10, 10), (.job 7 2 none, 10)],
      [(.job 7 2 none, 10), (.job 7 1 none, 10), (.claim 7 1 10, 10)],
      ⟨by decide, by simp⟩, ⟨by decide, by simp⟩, fun h => ?_⟩,
    ⟨[(.job 7 0 (some (2, 3)), 10), (.job 7 0 (some (4, 6)), 10)],
      [(.job 7 0 (some (4, 6)), 10), (.job 7 0 (some (2, 3)), 10)],
      ⟨by decide, by simp⟩, ⟨by decide, by simp⟩, fun h => ?_⟩⟩
  · exact absurd h.replication (by decide)
  · exact absurd h.replication (by decide)

end NdnRepo.Cluster

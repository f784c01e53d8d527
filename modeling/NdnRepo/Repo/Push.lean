import NdnRepo.Repo.Books

/-!
# What a push is answered

A `BlobFetch` stores the packets it carries that can be decoded, counts them, and does not
look at the count: the answer is 200 whatever became of them.  So it is true exactly if
all of them can be decoded (`push_truthful_iff`).
-/

namespace NdnRepo

namespace Repo

section Truthful

variable {Name Store : Type} [NdnName Name] [NdnData Name] [NameTlv Name] [NdnTlv]
  [DataStore Name Store]

/-- A push is answered 200 only if all its packets are stored. -/
structure TruthfulPush (repo : Repo Name Store) (value : Bytes) (b : BlobFetch Name) : Prop where
  /-- After a 200 the last packet pushed of each name pushed is served. -/
  stored : (repo.handleCommand value).1.status = 200 → ∀ wire ∈ b.data,
    ∃ data : NdnData.Data Name, NdnData.decode wire = some data ∧
      (repo.handleCommand value).2.get (NdnData.name data) =
        (b.data.filter (isDataOf (NdnData.name data))).getLast?
  /-- A packet that cannot be stored is reported. -/
  reported : (∃ wire ∈ b.data, (NdnData.decode wire : Option (NdnData.Data Name)) = none) →
    (repo.handleCommand value).1.status ≠ 200

/-- The answer to a push is true exactly if every packet can be decoded. -/
theorem push_truthful_iff (repo : Repo Name Store) {value : Bytes} {b : BlobFetch Name}
    (hcmd : RepoCmd.decode value = some (.blobFetch b)) :
    repo.TruthfulPush value b ↔
      ∀ wire ∈ b.data, (NdnData.decode wire : Option (NdnData.Data Name)).isSome := by
  have hcommand : repo.handleCommand value = repo.handleBlobFetch b := by
    simp only [handleCommand, hcmd]
  have hstatus : (repo.handleCommand value).1.status = 200 := by
    rw [hcommand, (repo.handleBlobFetch_eq b).1]
    rfl
  constructor
  · intro htrue wire hwire
    obtain ⟨data, hdata, -⟩ := htrue.stored hstatus wire hwire
    rw [hdata]
    rfl
  · intro hall
    refine ⟨fun _ wire hwire => ?_, fun hexists => ?_⟩
    · obtain ⟨data, hdata⟩ := Option.isSome_iff_exists.mp (hall wire hwire)
      -- The packet itself is of its name, so the last one of that name is a pushed one.
      have hmem : wire ∈ b.data.filter (isDataOf (NdnData.name data)) :=
        List.mem_filter.mpr ⟨hwire, by simp [isDataOf, hdata]⟩
      obtain ⟨last, hlast⟩ := List.getLast?_isSome.mpr (List.ne_nil_of_mem hmem) |>
        Option.isSome_iff_exists.mp
      refine ⟨data, hdata, ?_⟩
      rw [hcommand, get_handleBlobFetch, hlast, Option.some_or]
    · obtain ⟨wire, hwire, hnone⟩ := hexists
      have hsome := hall wire hwire
      rw [hnone] at hsome
      cases hsome

end Truthful

/-- A push of a Data packet. -/
def goodPush : BlobFetch Components where
  name := none
  data := [digestOnly]

/-- A push of a Data packet that is cut off. -/
def badPush : BlobFetch Components where
  name := none
  data := [[6, 5, 7, 3]]

theorem push_truthful_goodPush :
    letI := shortSha2
    letI := blockTlv
    (new FjallStore.empty : Repo Components _).TruthfulPush (pushCommand digestOnly) goodPush := by
  let _ := shortSha2
  let _ := blockTlv
  refine (push_truthful_iff _ ?_).mpr ?_
  · decide +kernel
  · decide +kernel

/-- It is not stored, and the push is answered with success. -/
theorem push_untruthful_badPush :
    letI := shortSha2
    letI := blockTlv
    let repo : Repo Components (FjallStore Components) := new FjallStore.empty
    RepoCmd.decode (pushCommand [6, 5, 7, 3]) = some (.blobFetch badPush) ∧
      (repo.handleCommand (pushCommand [6, 5, 7, 3])).1 = .ok ∧
      ¬repo.TruthfulPush (pushCommand [6, 5, 7, 3]) badPush := by
  let _ := shortSha2
  let _ := blockTlv
  intro repo
  have hok : (repo.handleCommand (pushCommand [6, 5, 7, 3])).1 = .ok := by decide +kernel
  refine ⟨by decide +kernel, hok, fun h => ?_⟩
  have hreported := h.reported ⟨[6, 5, 7, 3], by decide, by decide +kernel⟩
  rw [hok] at hreported
  exact hreported rfl

end Repo

end NdnRepo

import NdnRepo.Repo.Service

/-!
# The group that owns a name

Groups may lie within each other, and then several cover one name.  The owner is the
innermost of them, that which all others are prefixes of.  The service does not look for
it: it takes the first that covers the name in the order of its hash map.  So packets and
fetches of a name reach its owner in every order exactly if no other group covers the name
(`routed_iff`).
-/

namespace NdnRepo

namespace RepoService

variable {Name Store : Type} [NdnName Name] [NdnData Name]

/-- A running group covers a name. -/
def Covers (s : RepoService Name Store) (name group : Name) : Prop :=
  group ∈ s.groups ∧ hasPrefix name group = true

/-- The longest running group that covers a name. -/
structure Owns (s : RepoService Name Store) (name group : Name) : Prop where
  /-- It covers the name. -/
  covers : s.Covers name group
  /-- Any other group that does is a prefix of it. -/
  innermost : ∀ other, s.Covers name other → other ≠ group → hasPrefix group other = true

/-- What is of a name goes to one group. -/
structure RoutedTo [HashOrder Name] (s : RepoService Name Store) (name group : Name) : Prop where
  /-- So do packets. -/
  packets : ∀ raw, s.routeToGroup name raw = [.netIn group raw]
  /-- If it is to be fetched, it is fetched through the group. -/
  fetches : ∀ other, .ingestName other name ∈ s.drivePendingFetches.1 ↔
    other = group ∧ name ∈ s.repo.pendingFetches

/-- What is of a name goes to the group found for it. -/
theorem routedTo_iff [HashOrder Name] {s : RepoService Name Store} {name group : Name} :
    s.RoutedTo name group ↔ s.groupOf name = some group := by
  constructor
  · intro hrouted
    have hpackets := hrouted.packets []
    rw [routeToGroup] at hpackets
    cases hgroup : s.groupOf name with
    | none =>
        rw [hgroup] at hpackets
        cases hpackets
    | some other =>
        rw [hgroup] at hpackets
        cases hpackets
        rfl
  · intro hgroup
    refine ⟨fun raw => ?_, fun other => ?_⟩
    · rw [routeToGroup, hgroup]
    · simp only [drivePendingFetches, Repo.takePendingFetches, List.mem_filterMap,
        Option.map_eq_some_iff]
      constructor
      · rintro ⟨fetched, hfetched, found, hfound, heq⟩
        cases heq
        rw [hgroup] at hfound
        cases hfound
        exact ⟨rfl, hfetched⟩
      · rintro ⟨rfl, hname⟩
        exact ⟨name, hname, _, hgroup, rfl⟩

/-- In some order any group that covers a name is found first. -/
theorem exists_order_groupOf {s : RepoService Name Store} {name group : Name}
    (h : s.Covers name group) :
    ∃ _ : HashOrder Name, s.groupOf name = some group := by
  refine ⟨⟨fun keys => if group ∈ keys then group :: keys.erase group else keys,
    fun keys => ?_⟩, ?_⟩
  · split
    next hin => exact (List.perm_cons_erase hin).symm
    next => exact List.Perm.refl _
  · have hkey : group ∈ s.groups.keys := AList.mem_keys.mp h.1
    simp only [groupOf, if_pos hkey, List.find?_cons, h.2]

/-- What is of a name goes to its owner in every order of the map exactly if one group
covers the name. -/
theorem routed_iff (s : RepoService Name Store) (name : Name) :
    (∃ owner, s.Owns name owner ∧ ∀ [HashOrder Name], s.RoutedTo name owner) ↔
      ∃! group, s.Covers name group := by
  constructor
  · rintro ⟨owner, howns, hrouted⟩
    refine ⟨owner, howns.covers, fun other hother => ?_⟩
    obtain ⟨order, hfirst⟩ := exists_order_groupOf hother
    have hfound := routedTo_iff.mp (@hrouted order)
    exact Option.some.inj (hfirst.symm.trans hfound)
  · rintro ⟨group, hcovers, honly⟩
    refine ⟨group, ⟨hcovers, fun other hother hne => absurd (honly other hother) hne⟩, ?_⟩
    intro order
    obtain ⟨found, hfound⟩ := Option.isSome_iff_exists.mp (groupOf_isSome.mpr ⟨group, hcovers⟩)
    rw [routedTo_iff, hfound, honly found (groupOf_eq_some hfound)]

/-- Data of a name, and Interests for it that are not answered, go where the name does. -/
theorem dispatch_of_routedTo [NameTlv Name] [NdnTlvWriter] [NdnInterest Name] [HashOrder Name]
    [ScanStore Name Store] {s : RepoService Name Store} {name group : Name}
    (h : s.RoutedTo name group) (raw : Bytes) :
    (∀ data : NdnData.Data Name, raw.head? = some 0x06 → NdnData.decode raw = some data →
        NdnData.name data = name → s.dispatch raw = ([.netIn group raw], s)) ∧
      ∀ interest : NdnInterest.Interest Name, raw.head? = some 0x05 →
        NdnInterest.decode raw = some interest → NdnInterest.name interest = name →
          s.commandOf interest = none → s.serveFromStore interest = none →
            s.dispatch raw = ([.netIn group raw], s) := by
  refine ⟨fun data hhead hdata hname => ?_, fun interest hhead hinterest hname hcmd hserve => ?_⟩
  · simp only [dispatch, hhead, hdata, hname, h.packets]
  · obtain ⟨hin, hcovers⟩ := groupOf_eq_some (routedTo_iff.mp h)
    have hany : s.inAnyGroup name = true :=
      List.any_eq_true.mpr ⟨group, AList.mem_keys.mp hin, hcovers⟩
    simp only [dispatch, hhead, hinterest, hname, hcmd, hany, hserve, h.packets, if_true]

end RepoService

/-- The order of a map, reversed. -/
@[reducible] def reverseOrder : HashOrder Components := ⟨List.reverse, List.reverse_perm⟩

/-- Of `/g` and `/g/h` the latter owns `/g/h/x`, and in one of two orders the former gets
its packets. -/
theorem inner_group_missed :
    letI := shortSha2
    letI := blockTlvWriter
    let s := smallService [[[8, 1, 103]], [[8, 1, 103], [8, 1, 104]]]
    let name : Components := [[8, 1, 103], [8, 1, 104], [8, 1, 120]]
    s.Owns name [[8, 1, 103], [8, 1, 104]] ∧
      @RepoService.groupOf _ _ _ _ reverseOrder s name = some [[8, 1, 103]] ∧
      ¬∃ owner, s.Owns name owner ∧ ∀ [HashOrder Components], s.RoutedTo name owner := by
  let _ := shortSha2
  let _ := blockTlvWriter
  intro s name
  have hkeys : s.groups.keys = [[[8, 1, 103], [8, 1, 104]], [[8, 1, 103]]] := by decide +kernel
  have hfirst : @RepoService.groupOf _ _ _ _ reverseOrder s name = some [[8, 1, 103]] := by
    decide +kernel
  refine ⟨⟨⟨?_, by decide +kernel⟩, fun other hother hne => ?_⟩, hfirst, ?_⟩
  · exact AList.mem_keys.mpr (by rw [hkeys]; decide)
  · have hkey := AList.mem_keys.mp hother.1
    rw [hkeys, List.mem_cons, List.mem_singleton] at hkey
    obtain rfl := hkey.resolve_left hne
    decide
  · rintro ⟨owner, -, hrouted⟩
    have hinner := RepoService.routedTo_iff.mp hrouted
    have houter := (@RepoService.routedTo_iff _ _ _ _ reverseOrder _ _ _).mp (@hrouted reverseOrder)
    rw [hfirst] at houter
    rw [← houter] at hinner
    exact absurd hinner (by decide +kernel)

end NdnRepo

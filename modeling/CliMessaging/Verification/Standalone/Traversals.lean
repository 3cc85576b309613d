import CliMessaging.Verification.Standalone.Requests

/-! # Traversals of the logged-in users

The loops over the array of `list_users` take their bound from a variable that the call
leaves alone when nobody is logged in. -/

namespace CliMessaging.Standalone

open State

variable {st : State} {env : Env} {input : Input}

/-- The loop of the pass goes through the list of users and nothing else: the indices that it
reads are those of the listed users, each entry leads to a record, and the pass comes to the
end that it has with these entries. -/
structure State.Traverses (st : State) (env : Env) (input : Input) : Prop where
  entries : arrayEntries (st.listUsers env.count).1 (st.listUsers env.count).2 = .ok st.userList
  records : st.users.readAll st.userList = .ok (st.users.objects st.userList)
  loop : st.react env input = st.overUsers env st.userList input
  completes : ∃ st' sent, st.react env input = .ok (st', sent)

theorem State.Inv.traverses (h : st.Inv) (hnot : ¬ st.Stumbles env input)
    (hlists : st.ListsUsers input) : st.Traverses env input := by
  have hentries : arrayEntries (st.listUsers env.count).1 (st.listUsers env.count).2 =
      .ok st.userList := by
    rw [listUsers_entries, if_neg fun hempty => hnot ⟨hlists, hempty⟩]
  exact {
    entries := hentries
    records := Heap.readAll_of_live h.directory.live
    loop := by rw [st.react_of_listsUsers env hlists, hentries, bind_ok]
    completes := h.react_ok hnot }

/-- In a reachable state, a pass with a loop over the logged-in users reads exactly the
records of the list of users if and only if somebody is logged in or the uninitialised bound
happens not to be positive. Otherwise it reads from NULL, and the server goes down. -/
theorem traverses_iff_bounded (hst : st.Reachable) (env : Env) (input : Input)
    (hlists : st.ListsUsers input) :
    (st.Traverses env input ↔ st.userList ≠ [] ∨ env.count ≤ 0) ∧
      (st.react env input = .error .nullPointer ↔ ¬(st.userList ≠ [] ∨ env.count ≤ 0)) := by
  have hiff : ¬(st.userList ≠ [] ∨ env.count ≤ 0) ↔ st.Stumbles env input := by
    rw [not_or, not_not, not_le, Stumbles]
    exact (and_iff_right hlists).symm
  have hfault : st.react env input = .error .nullPointer ↔ st.Stumbles env input := by
    refine ⟨fun herror => ?_, react_of_stumbles⟩
    by_contra hnot
    obtain ⟨st', sent, hok⟩ := hst.inv.react_ok hnot
    rw [hok] at herror
    cases herror
  refine ⟨⟨fun htraverses => ?_, fun hbound => ?_⟩, hfault.trans hiff.symm⟩
  · by_contra hbound
    obtain ⟨st', sent, hok⟩ := htraverses.completes
    rw [hfault.mpr (hiff.mp hbound)] at hok
    cases hok
  · exact hst.inv.traverses (fun hstumbles => hiff.mpr hstumbles hbound) hlists

/-- A scan of two users, one of them for too long without a sign of life, with a seven in the
uninitialised variable. -/
theorem traverses_iff_bounded_scan :
    ∃ st, State.initial.replay [(.at 0, .recv (desk 1) (.login alice)),
        (.at 90, .recv (desk 2) (.login bob))] = some st ∧
      st.userList = [0, 1] ∧ st.Traverses ⟨fun _ => 130, 7⟩ .scan ∧
      ∃ st', st.react ⟨fun _ => 130, 7⟩ .scan = .ok (st', []) ∧ st'.userList = [1] := by
  have hfacts : (State.initial.replay [(.at 0, .recv (desk 1) (.login alice)),
      (.at 90, .recv (desk 2) (.login bob))]).any fun st =>
        decide (st.userList = [0, 1]) &&
          decide ((st.overUsers ⟨fun _ => 130, 7⟩ [0, 1] .scan).toOption.map
            (fun result => (result.1.userList, result.2)) = some ([1], [])) := by decide
  obtain ⟨st, hreplay, hheld⟩ := (Option.any_eq_true _ _).mp hfacts
  simp only [Bool.and_eq_true, decide_eq_true_eq] at hheld
  obtain ⟨hlist, hafter⟩ := hheld
  have hscan : st.ListsUsers .scan := trivial
  have htraverses : st.Traverses ⟨fun _ => 130, 7⟩ .scan :=
    (traverses_iff_bounded (State.run_of_replay hreplay) _ _ hscan).1.mpr (.inl (by simp [hlist]))
  have hloop := htraverses.loop
  obtain ⟨st', sent, hok⟩ := htraverses.completes
  rw [hok, hlist] at hloop
  rw [← hloop] at hafter
  obtain ⟨hlist', rfl⟩ := Prod.mk.inj (Option.some.inj hafter)
  exact ⟨st, hreplay, hlist, htraverses, st', hok, hlist'⟩

/-- A scan before anybody has logged in, with a one in the uninitialised variable. -/
theorem scan_of_nobody_not_traverses :
    State.initial.Reachable ∧ State.initial.ListsUsers .scan ∧
      State.initial.react ⟨fun _ => 0, 1⟩ .scan = .error .nullPointer ∧
      ¬ State.initial.Traverses ⟨fun _ => 0, 1⟩ .scan := by
  have hfault : State.initial.react ⟨fun _ => 0, 1⟩ .scan = .error .nullPointer := rfl
  refine ⟨⟨[], .nil _⟩, trivial, hfault, fun htraverses => ?_⟩
  obtain ⟨st', sent, hok⟩ := htraverses.completes
  rw [hfault] at hok
  cases hok

end CliMessaging.Standalone

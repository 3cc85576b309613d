import CliMessaging.Model.Distributed.State

/-! # Coherent user sets

A user set is coherent when its list and its two maps describe one partial bijection
between names and endpoints. Removing a user erases by name, by endpoint and by both,
so it keeps a set coherent only if every listed user shares both with it or neither. -/

namespace CliMessaging.Distributed.UserSet

structure Coherent (s : UserSet) : Prop where
  nodup : s.userList.Nodup
  byName : Indexes (fun u : User => some u.name) s.userList s.userNameMap
  byIp : Indexes (fun u : User => some u.addr) s.userList s.userIpMap

/-- No listed user shares exactly one of name and endpoint with `user`. -/
def Fits (s : UserSet) (user : User) : Prop :=
  ∀ u ∈ s.userList, u.name = user.name ↔ u.addr = user.addr

variable {s : UserSet} {u v user : User}

theorem coherent_empty : empty.Coherent :=
  ⟨List.nodup_nil, Indexes.nil, Indexes.nil⟩

theorem Coherent.eq_of_name (h : s.Coherent) (hu : u ∈ s.userList) (hv : v ∈ s.userList)
    (hname : u.name = v.name) : u = v :=
  h.byName.eq_of_key_eq hu hv (congrArg some hname) rfl

theorem Coherent.eq_of_addr (h : s.Coherent) (hu : u ∈ s.userList) (hv : v ∈ s.userList)
    (haddr : u.addr = v.addr) : u = v :=
  h.byIp.eq_of_key_eq hu hv (congrArg some haddr) rfl

theorem Coherent.nodup_addr (h : s.Coherent) : (s.userList.map User.addr).Nodup :=
  h.nodup.map_on fun _ hu _ hv => h.eq_of_addr hu hv

theorem Coherent.getUserByName_eq_some (h : s.Coherent) {name : Uname} :
    s.getUserByName name = some u ↔ u ∈ s.userList ∧ u.name = name := by
  rw [getUserByName, h.byName name u, Option.some_inj]

theorem Coherent.getUserByIp_eq_some (h : s.Coherent) {a : Addressable} :
    s.getUserByIp a = some u ↔ u ∈ s.userList ∧ u.addr = a := by
  rw [getUserByIp, h.byIp a u, Option.some_inj]

theorem Coherent.getUserByName_eq_none (h : s.Coherent) {name : Uname} :
    s.getUserByName name = none ↔ ∀ u ∈ s.userList, u.name ≠ name := by
  rw [getUserByName, h.byName.lookup_eq_none_iff]
  simp

theorem Coherent.getUserByIp_eq_none (h : s.Coherent) {a : Addressable} :
    s.getUserByIp a = none ↔ ∀ u ∈ s.userList, u.addr ≠ a := by
  rw [getUserByIp, h.byIp.lookup_eq_none_iff]
  simp

/-- A listed user fits its own set. -/
theorem Coherent.fits_of_mem (h : s.Coherent) (hu : u ∈ s.userList) : s.Fits u := by
  intro v hv
  constructor
  · intro hname
    rw [h.eq_of_name hv hu hname]
  · intro haddr
    rw [h.eq_of_addr hv hu haddr]

/-! ## Removal -/

theorem isListed_iff : (u.compareNames user && Addressable.compareAddrs u.addr user.addr) = true ↔
    u.name = user.name ∧ u.addr = user.addr := by
  simp [User.compareNames, Addressable.compareAddrs]

theorem Coherent.removeUser_of_listed (h : s.Coherent) (hv : v ∈ s.userList)
    (hname : v.name = user.name) (haddr : v.addr = user.addr) :
    (s.removeUser user).Coherent ∧
      ∀ u, u ∈ (s.removeUser user).userList ↔
        u ∈ s.userList ∧ ¬(u.name = user.name ∧ u.addr = user.addr) := by
  have hv_iff : ∀ u ∈ s.userList, u.name = user.name ∧ u.addr = user.addr ↔ u = v := by
    intro u hu
    constructor
    · intro hu'
      exact h.eq_of_name hu hv (hu'.1.trans hname.symm)
    · intro huv
      rw [huv]
      exact ⟨hname, haddr⟩
  have hlist : (s.removeUser user).userList = s.userList.erase v :=
    eraseP_eq_erase hv fun u hu => isListed_iff.trans (hv_iff u hu)
  refine ⟨⟨?_, ?_, ?_⟩, ?_⟩
  · rw [hlist]
    exact h.nodup.erase v
  · rw [hlist]
    exact h.byName.erase h.nodup hv (congrArg some hname)
  · rw [hlist]
    exact h.byIp.erase h.nodup hv (congrArg some haddr)
  · intro u
    rw [hlist, h.nodup.mem_erase_iff, and_comm]
    apply and_congr_right
    intro hu
    rw [hv_iff u hu]

theorem Coherent.removeUser_of_free (h : s.Coherent)
    (hfree : ∀ u ∈ s.userList, u.name ≠ user.name ∧ u.addr ≠ user.addr) :
    (s.removeUser user).Coherent ∧
      ∀ u, u ∈ (s.removeUser user).userList ↔
        u ∈ s.userList ∧ ¬(u.name = user.name ∧ u.addr = user.addr) := by
  have hlist : (s.removeUser user).userList = s.userList := by
    apply List.eraseP_of_forall_not
    intro u hu hboth
    exact (hfree u hu).1 (isListed_iff.mp hboth).1
  refine ⟨⟨?_, ?_, ?_⟩, ?_⟩
  · rw [hlist]
    exact h.nodup
  · rw [hlist]
    apply h.byName.erase_unused
    intro u hu heq
    exact (hfree u hu).1 (Option.some.inj heq)
  · rw [hlist]
    apply h.byIp.erase_unused
    intro u hu heq
    exact (hfree u hu).2 (Option.some.inj heq)
  · intro u
    rw [hlist]
    constructor
    · intro hu
      exact ⟨hu, fun hboth => (hfree u hu).1 hboth.1⟩
    · exact And.left

theorem Coherent.removeUser (h : s.Coherent) (hfit : s.Fits user) :
    (s.removeUser user).Coherent ∧
      ∀ u, u ∈ (s.removeUser user).userList ↔
        u ∈ s.userList ∧ ¬(u.name = user.name ∧ u.addr = user.addr) := by
  by_cases hlisted : ∃ v ∈ s.userList, v.name = user.name ∧ v.addr = user.addr
  · obtain ⟨v, hv, hname, haddr⟩ := hlisted
    exact h.removeUser_of_listed hv hname haddr
  · refine h.removeUser_of_free fun u hu => ⟨fun hname => ?_, fun haddr => ?_⟩
    · exact hlisted ⟨u, hu, hname, (hfit u hu).mp hname⟩
    · exact hlisted ⟨u, hu, (hfit u hu).mpr haddr, haddr⟩

theorem Coherent.removeUserByName (h : s.Coherent) (name : Uname) :
    (s.removeUserByName name).Coherent ∧
      ∀ u, u ∈ (s.removeUserByName name).userList ↔ u ∈ s.userList ∧ u.name ≠ name := by
  unfold UserSet.removeUserByName
  cases hget : s.getUserByName name with
  | none =>
      have hfree := h.getUserByName_eq_none.mp hget
      exact ⟨h, fun u => ⟨fun hu => ⟨hu, hfree u hu⟩, And.left⟩⟩
  | some v =>
      obtain ⟨hv, rfl⟩ := h.getUserByName_eq_some.mp hget
      obtain ⟨hcoh, hmem⟩ := h.removeUser (h.fits_of_mem hv)
      refine ⟨hcoh, fun u => (hmem u).trans (and_congr_right fun hu => not_congr ?_)⟩
      constructor
      · exact And.left
      · intro hname
        exact ⟨hname, (h.fits_of_mem hv u hu).mp hname⟩

theorem Coherent.removeUserByIp (h : s.Coherent) (a : Addressable) :
    (s.removeUserByIp a).Coherent ∧
      ∀ u, u ∈ (s.removeUserByIp a).userList ↔ u ∈ s.userList ∧ u.addr ≠ a := by
  unfold UserSet.removeUserByIp
  cases hget : s.getUserByIp a with
  | none =>
      have hfree := h.getUserByIp_eq_none.mp hget
      exact ⟨h, fun u => ⟨fun hu => ⟨hu, hfree u hu⟩, And.left⟩⟩
  | some v =>
      obtain ⟨hv, rfl⟩ := h.getUserByIp_eq_some.mp hget
      obtain ⟨hcoh, hmem⟩ := h.removeUser (h.fits_of_mem hv)
      refine ⟨hcoh, fun u => (hmem u).trans (and_congr_right fun hu => not_congr ?_)⟩
      constructor
      · exact And.right
      · intro haddr
        exact ⟨(h.fits_of_mem hv u hu).mpr haddr, haddr⟩

/-! ## Removing several users -/

theorem mem_removeUser_of_not_both (hu : u ∈ s.userList)
    (hnot : ¬ (u.name = user.name ∧ u.addr = user.addr)) : u ∈ (s.removeUser user).userList := by
  apply (List.mem_eraseP_of_neg ?_).mpr hu
  rw [isListed_iff]
  exact hnot

theorem mem_foldl_removeUser_of_not_both {us : List User} (hu : u ∈ s.userList)
    (hnot : ∀ v ∈ us, ¬ (u.name = v.name ∧ u.addr = v.addr)) :
    u ∈ (us.foldl UserSet.removeUser s).userList := by
  induction us generalizing s with
  | nil => exact hu
  | cons v us ih =>
      have hkept := mem_removeUser_of_not_both hu (hnot v List.mem_cons_self)
      exact ih hkept fun w hw => hnot w (List.mem_cons_of_mem _ hw)

theorem foldl_removeUser_maps (s : UserSet) (us : List User) :
    (us.foldl UserSet.removeUser s).userNameMap =
        us.foldl (fun m v => m.erase v.name) s.userNameMap ∧
      (us.foldl UserSet.removeUser s).userIpMap =
        us.foldl (fun m v => m.erase v.addr) s.userIpMap := by
  induction us generalizing s with
  | nil => exact ⟨rfl, rfl⟩
  | cons v us ih => exact ih (s.removeUser v)

theorem Coherent.foldl_removeUser (h : s.Coherent) {us : List User} (hfit : ∀ v ∈ us, s.Fits v) :
    (us.foldl UserSet.removeUser s).Coherent ∧
      ∀ u, u ∈ (us.foldl UserSet.removeUser s).userList ↔
        u ∈ s.userList ∧ ∀ v ∈ us, ¬ (u.name = v.name ∧ u.addr = v.addr) := by
  induction us generalizing s with
  | nil => exact ⟨h, by simp⟩
  | cons v us ih =>
      obtain ⟨hcoh, hmem⟩ := h.removeUser (hfit v List.mem_cons_self)
      have hfit' : ∀ w ∈ us, (s.removeUser v).Fits w := fun w hw u hu =>
        hfit w (List.mem_cons_of_mem _ hw) u ((hmem u).mp hu).1
      obtain ⟨hcoh', hmem'⟩ := ih hcoh hfit'
      refine ⟨hcoh', fun u => ?_⟩
      rw [List.foldl_cons, hmem', hmem, List.forall_mem_cons, and_assoc]

/-- Users that share neither a name nor an endpoint with each other fit a coherent set if
it is coherent after their removal, unless that empties it: a user that shares one of the
two with a removed user would stay listed without its entry in that map. -/
theorem fits_of_foldl_removeUser {us : List User}
    (hdistinct : ∀ u ∈ us, ∀ v ∈ us, u.name = v.name ∨ u.addr = v.addr → u = v)
    (hcoh : ∀ u ∈ (us.foldl UserSet.removeUser s).userList,
      (us.foldl UserSet.removeUser s).Coherent) : ∀ v ∈ us, s.Fits v := by
  intro v hv u hu
  by_contra hxor
  have hstays : u ∈ (us.foldl UserSet.removeUser s).userList := by
    refine mem_foldl_removeUser_of_not_both hu ?_
    rintro w hw ⟨hname, haddr⟩
    apply hxor
    constructor
    · intro hshared
      rw [hdistinct v hv w hw (Or.inl (hshared.symm.trans hname)), haddr]
    · intro hshared
      rw [hdistinct v hv w hw (Or.inr (hshared.symm.trans haddr)), hname]
  obtain ⟨hnames, haddrs⟩ := foldl_removeUser_maps s us
  have hafter := hcoh u hstays
  by_cases hname : u.name = v.name
  · have hgone : (us.foldl UserSet.removeUser s).getUserByName v.name = none := by
      rw [getUserByName, hnames, lookup_foldl_erase, if_pos (List.mem_map_of_mem hv)]
    exact hafter.getUserByName_eq_none.mp hgone u hstays hname
  · have haddr : u.addr = v.addr := by
      by_contra haddr
      exact hxor (iff_of_false hname haddr)
    have hgone : (us.foldl UserSet.removeUser s).getUserByIp v.addr = none := by
      rw [getUserByIp, haddrs, lookup_foldl_erase, if_pos (List.mem_map_of_mem hv)]
    exact hafter.getUserByIp_eq_none.mp hgone u hstays haddr

/-! ## Addition -/

/-- Adding a user displaces every user with its name or its endpoint. -/
theorem Coherent.addUser (h : s.Coherent) (user : User) :
    (s.addUser user).Coherent ∧
      ∀ u, u ∈ (s.addUser user).userList ↔
        u ∈ s.userList ∧ u.name ≠ user.name ∧ u.addr ≠ user.addr ∨ u = user := by
  obtain ⟨h₁, hmem₁⟩ := h.removeUserByName user.name
  obtain ⟨h₂, hmem₂⟩ := h₁.removeUserByIp user.addr
  let kept := (s.removeUserByName user.name).removeUserByIp user.addr
  have hkept : ∀ u, u ∈ kept.userList ↔
      u ∈ s.userList ∧ u.name ≠ user.name ∧ u.addr ≠ user.addr := by
    intro u
    rw [hmem₂, hmem₁, and_assoc]
  have hname : kept.userNameMap.lookup user.name = none := by
    apply h₂.getUserByName_eq_none.mpr
    intro u hu
    exact ((hkept u).mp hu).2.1
  have haddr : kept.userIpMap.lookup user.addr = none := by
    apply h₂.getUserByIp_eq_none.mpr
    intro u hu
    exact ((hkept u).mp hu).2.2
  have hnew : user ∉ kept.userList := fun hu => ((hkept user).mp hu).2.1 rfl
  have hset : s.addUser user =
      { userList := kept.userList ++ [user]
        userIpMap := kept.userIpMap.insert user.addr user
        userNameMap := kept.userNameMap.insert user.name user } := by
    simp only [UserSet.addUser]
    rw [insertNew_of_lookup_none hname, insertNew_of_lookup_none haddr]
  rw [hset]
  refine ⟨⟨?_, h₂.byName.append rfl hname, h₂.byIp.append rfl haddr⟩, ?_⟩
  · apply List.nodup_append.mpr
    refine ⟨h₂.nodup, by simp, ?_⟩
    intro u hu v hv
    rw [List.mem_singleton.mp hv]
    rintro rfl
    exact hnew hu
  · intro u
    rw [List.mem_append, hkept, List.mem_singleton]

/-- `Channel::add_user` removes by name and by endpoint once more, to no effect. -/
theorem Coherent.channelAddUser (h : s.Coherent) (user : User) :
    (((s.removeUserByName user.name).removeUserByIp user.addr).addUser user).Coherent ∧
      ∀ u, u ∈ (((s.removeUserByName user.name).removeUserByIp user.addr).addUser
          user).userList ↔
        u ∈ s.userList ∧ u.name ≠ user.name ∧ u.addr ≠ user.addr ∨ u = user := by
  obtain ⟨h₁, hmem₁⟩ := h.removeUserByName user.name
  obtain ⟨h₂, hmem₂⟩ := h₁.removeUserByIp user.addr
  obtain ⟨h₃, hmem₃⟩ := h₂.addUser user
  refine ⟨h₃, fun u => ?_⟩
  rw [hmem₃, hmem₂, hmem₁]
  tauto

end CliMessaging.Distributed.UserSet

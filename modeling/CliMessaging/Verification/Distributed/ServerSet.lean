import CliMessaging.Model.Distributed.State

/-! # Coherent server sets

A server set is coherent when its map finds exactly the servers of its list. Servers
are compared by address alone, so every operation keeps a set coherent. -/

namespace CliMessaging.Distributed

namespace ServerSet

structure Coherent (s : ServerSet) : Prop where
  nodup : s.serverList.Nodup
  index : Indexes (fun t : Server => some t) s.serverList s.serverMap

variable {s : ServerSet} {server : Server}

theorem coherent_empty : empty.Coherent :=
  ⟨List.nodup_nil, Indexes.nil⟩

theorem Coherent.getServer_eq_some (h : s.Coherent) {a : Addressable} :
    s.getServer a = some server ↔ a ∈ s.serverList ∧ server = a := by
  rw [getServer, h.index a server, Option.some_inj]
  constructor
  · rintro ⟨hs, rfl⟩
    exact ⟨hs, rfl⟩
  · rintro ⟨hs, rfl⟩
    exact ⟨hs, rfl⟩

theorem Coherent.getServer_eq_none (h : s.Coherent) {a : Addressable} :
    s.getServer a = none ↔ a ∉ s.serverList := by
  rw [getServer, h.index.lookup_eq_none_iff]
  constructor
  · intro hfree ha
    exact hfree a ha rfl
  · intro ha t ht heq
    cases heq
    exact ha ht

theorem getServerByAddr_eq_some (s : ServerSet) {a : Addressable} :
    s.getServerByAddr a = some server ↔ a ∈ s.serverList ∧ server = a := by
  unfold getServerByAddr
  induction s.serverList with
  | nil => simp
  | cons t servers ih =>
      by_cases ht : a = t
      · subst ht
        simp [Addressable.compareAddrs, eq_comm]
      · have hfalse : Addressable.compareAddrs a t = false := by
          simp [Addressable.compareAddrs, ht]
        rw [List.find?_cons_of_neg (by simp [hfalse]), ih]
        simp [ht]

theorem getServerByAddr_of_mem (s : ServerSet) {a : Addressable} (ha : a ∈ s.serverList) :
    s.getServerByAddr a = some a :=
  (s.getServerByAddr_eq_some).mpr ⟨ha, rfl⟩

theorem getServerByAddr_eq_none (s : ServerSet) {a : Addressable} :
    s.getServerByAddr a = none ↔ a ∉ s.serverList := by
  constructor
  · intro hnone ha
    rw [s.getServerByAddr_of_mem ha] at hnone
    cases hnone
  · intro ha
    cases hget : s.getServerByAddr a with
    | none => rfl
    | some t => exact absurd ((s.getServerByAddr_eq_some).mp hget).1 ha

theorem Coherent.removeServer (h : s.Coherent) (hmem : server ∈ s.serverList) :
    (s.removeServer server).Coherent ∧
      (s.removeServer server).serverList = s.serverList.erase server := by
  have hlist : (s.removeServer server).serverList = s.serverList.erase server := by
    apply eraseP_eq_erase hmem
    intro t _
    simp [Addressable.compareAddrs]
  refine ⟨⟨?_, ?_⟩, hlist⟩
  · rw [hlist]
    exact h.nodup.erase server
  · rw [hlist]
    exact h.index.erase h.nodup hmem rfl

theorem Coherent.removeServerByIp (h : s.Coherent) (a : Addressable) :
    (s.removeServerByIp a).Coherent ∧
      (s.removeServerByIp a).serverList = s.serverList.erase a := by
  unfold ServerSet.removeServerByIp
  cases hget : s.getServer a with
  | none => exact ⟨h, (List.erase_of_not_mem (h.getServer_eq_none.mp hget)).symm⟩
  | some t =>
      obtain ⟨ha, rfl⟩ := h.getServer_eq_some.mp hget
      exact h.removeServer ha

theorem Coherent.removeServerByAddr (h : s.Coherent) (a : Addressable) :
    (s.removeServerByAddr a).Coherent ∧
      (s.removeServerByAddr a).serverList = s.serverList.erase a := by
  unfold ServerSet.removeServerByAddr
  cases hget : s.getServerByAddr a with
  | none => exact ⟨h, (List.erase_of_not_mem (s.getServerByAddr_eq_none.mp hget)).symm⟩
  | some t =>
      obtain ⟨ha, rfl⟩ := (s.getServerByAddr_eq_some).mp hget
      exact h.removeServer ha

/-- An added server goes to the end of the list, from wherever it was. -/
theorem Coherent.addServer (h : s.Coherent) (server : Server) :
    (s.addServer server).Coherent ∧
      (s.addServer server).serverList = s.serverList.erase server ++ [server] := by
  obtain ⟨h₁, hlist₁⟩ := h.removeServerByAddr server
  obtain ⟨h₂, hlist₂⟩ := h₁.removeServerByIp server
  let kept := (s.removeServerByAddr server).removeServerByIp server
  have hkept : kept.serverList = s.serverList.erase server := by
    rw [hlist₂, hlist₁, List.erase_of_not_mem h.nodup.not_mem_erase]
  have hnew : server ∉ kept.serverList := by
    rw [hkept]
    exact h.nodup.not_mem_erase
  have hfree : kept.serverMap.lookup server = none := h₂.getServer_eq_none.mpr hnew
  have hset : s.addServer server =
      { serverList := kept.serverList ++ [server]
        serverMap := kept.serverMap.insert server server } := by
    simp only [ServerSet.addServer]
    rw [insertNew_of_lookup_none hfree]
  rw [hset]
  refine ⟨⟨?_, h₂.index.append rfl hfree⟩, by rw [hkept]⟩
  apply List.nodup_append.mpr
  refine ⟨h₂.nodup, by simp, ?_⟩
  intro t ht t' ht'
  rw [List.mem_singleton.mp ht']
  rintro rfl
  exact hnew ht

/-- Adding distinct new servers one by one appends them in order. -/
theorem Coherent.foldl_addServer (h : s.Coherent) {servers : List Server}
    (hnd : servers.Nodup) (hnew : ∀ t ∈ servers, t ∉ s.serverList) :
    (servers.foldl ServerSet.addServer s).Coherent ∧
      (servers.foldl ServerSet.addServer s).serverList = s.serverList ++ servers := by
  induction servers generalizing s with
  | nil => exact ⟨h, by simp⟩
  | cons t servers ih =>
      obtain ⟨ht, hnd⟩ := List.nodup_cons.mp hnd
      obtain ⟨h', hlist⟩ := h.addServer t
      rw [List.erase_of_not_mem (hnew t (by simp))] at hlist
      have hnew' : ∀ t' ∈ servers, t' ∉ (s.addServer t).serverList := by
        intro t' ht' hmem
        rw [hlist] at hmem
        rcases List.mem_append.mp hmem with hmem | hmem
        · exact hnew t' (by simp [ht']) hmem
        · rw [List.mem_singleton.mp hmem] at ht'
          exact ht ht'
      obtain ⟨hcoh, hfinal⟩ := ih h' hnd hnew'
      exact ⟨hcoh, by simpa [hlist] using hfinal⟩

end ServerSet

/-! ## Routes of a channel -/

namespace Channel

variable {c : Channel} {server : Server}

theorem containsServer_iff (h : c.sset.Coherent) :
    c.containsServer server ↔ server ∈ c.serverList := by
  unfold containsServer serverList
  cases hget : c.sset.getServer server with
  | none => simp [h.getServer_eq_none.mp hget]
  | some t => simp [(h.getServer_eq_some.mp hget).1]

theorem removeServer_sset (h : c.sset.Coherent) (server : Server) :
    (c.removeServer server).sset.Coherent ∧
      (c.removeServer server).serverList = c.serverList.erase server :=
  h.removeServerByIp server

theorem addServer_sset (h : c.sset.Coherent) (now : ℕ) (server : Server) :
    (c.addServer now server).sset.Coherent ∧
      (c.addServer now server).serverList = c.serverList.erase server ++ [server] := by
  obtain ⟨h₁, hlist₁⟩ := h.removeServerByIp server
  obtain ⟨h₂, hlist₂⟩ := h₁.addServer server
  refine ⟨h₂, hlist₂.trans ?_⟩
  rw [hlist₁, List.erase_of_not_mem h.nodup.not_mem_erase]
  rfl

@[simp] theorem serverHeartbeat_sset (c : Channel) (now : ℕ) (server : Server) :
    (c.serverHeartbeat now server).sset = c.sset := by
  unfold serverHeartbeat
  split <;> rfl

@[simp] theorem serverHeartbeat_uset (c : Channel) (now : ℕ) (server : Server) :
    (c.serverHeartbeat now server).uset = c.uset := by
  unfold serverHeartbeat
  split <;> rfl

@[simp] theorem serverHeartbeat_name (c : Channel) (now : ℕ) (server : Server) :
    (c.serverHeartbeat now server).name = c.name := by
  unfold serverHeartbeat
  split <;> rfl

@[simp] theorem serverHeartbeat_uidSet (c : Channel) (now : ℕ) (server : Server) :
    (c.serverHeartbeat now server).uidSet = c.uidSet := by
  unfold serverHeartbeat
  split <;> rfl

/-- What a join from `server` does to a channel that exists. -/
def heardFrom (c : Channel) (now : ℕ) (server : Server) : Channel :=
  if c.containsServer server then c.serverHeartbeat now server
  else (c.addServer now server).serverHeartbeat now server

@[simp] theorem heardFrom_name (c : Channel) (now : ℕ) (server : Server) :
    (c.heardFrom now server).name = c.name := by
  unfold heardFrom
  split <;> simp [addServer, removeServer]

@[simp] theorem heardFrom_uset (c : Channel) (now : ℕ) (server : Server) :
    (c.heardFrom now server).uset = c.uset := by
  unfold heardFrom
  split <;> simp [addServer, removeServer]

@[simp] theorem heardFrom_uidSet (c : Channel) (now : ℕ) (server : Server) :
    (c.heardFrom now server).uidSet = c.uidSet := by
  unfold heardFrom
  split <;> simp [addServer, removeServer]

theorem heardFrom_sset (h : c.sset.Coherent) (now : ℕ) (server : Server) :
    (c.heardFrom now server).sset.Coherent ∧
      ∀ t, t ∈ (c.heardFrom now server).serverList ↔ t ∈ c.serverList ∨ t = server := by
  unfold heardFrom serverList
  split
  · rename_i hin
    have hmem := (containsServer_iff h).mp hin
    refine ⟨by simpa using h, fun t => ?_⟩
    rw [serverHeartbeat_sset]
    constructor
    · exact Or.inl
    · rintro (ht | rfl)
      · exact ht
      · exact hmem
  · rename_i hout
    have hmem : server ∉ c.serverList := fun hin => hout ((containsServer_iff h).mpr hin)
    obtain ⟨hcoh, hlist⟩ := addServer_sset h now server
    rw [List.erase_of_not_mem hmem] at hlist
    refine ⟨by simpa using hcoh, fun t => ?_⟩
    rw [serverHeartbeat_sset, show (c.addServer now server).sset.serverList = _ from hlist]
    simp [serverList]

end Channel

end CliMessaging.Distributed

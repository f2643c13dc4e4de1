import Madkv.Justmod.Xtract

/-!
Which ports and peers the nodes of a replicated service get.

* `Address`: an address with a port, as it stands in a list of servers.
* `partition_getElem?`: the addresses of a partition, from their places in the list.
* `mesh`: the nodes of a partition get their own ports and each other's addresses.
* `outOfBounds_iff`: ports and peers are withheld from the same nodes, unless a
  replica has the port of another partition.
-/

namespace Madkv.Justmod

open Python

/-- An address `ip:port`, without blanks. -/
structure Address where
  ip : Str
  port : Str
  port_ne_nil : port ≠ []
  clean : ∀ c ∈ ip ++ port, c ≠ ':' ∧ c ≠ ',' ∧ isSpace c = false

def Address.text (a : Address) : Str := a.ip ++ ':' :: a.port

/-- Addresses in one text. -/
def serversText (addrs : List Address) : Str := join ',' (addrs.map Address.text)

/-- The addresses in a text of peers. -/
def peersIn (out : Str) : List Str := if out = "none".toList then [] else split out ','

section Texts

variable {a : Address} {addrs : List Address} {peers : List Str} {s : Str}

lemma Address.colon_notMem_ip (a : Address) : ':' ∉ a.ip :=
  fun h => (a.clean ':' (List.mem_append_left _ h)).1 rfl

lemma Address.strip_port (a : Address) : strip a.port = a.port :=
  strip_eq_self fun c hc => (a.clean c (List.mem_append_right _ hc)).2.2

lemma Address.comma_notMem_text (a : Address) : ',' ∉ a.text := by
  intro h
  have hmem : ',' ∈ a.ip ++ a.port := by simpa [Address.text] using h
  exact (a.clean ',' hmem).2.1 rfl

lemma Address.colon_mem_text (a : Address) : ':' ∈ a.text := by simp [Address.text]

lemma split_serversText (hne : addrs ≠ []) :
    split (serversText addrs) ',' = addrs.map Address.text := by
  refine split_join (fun s hs => ?_) (by simpa using hne)
  obtain ⟨a, -, rfl⟩ := List.mem_map.mp hs
  exact a.comma_notMem_text

lemma peersText_ne_nil (peers : List Str) : peersText peers ≠ [] := by
  rw [peersText]
  split
  · decide
  · exact fun h => ‹¬ _› (by rw [h]; rfl)

/-- The peers are read off their text. -/
lemma peersIn_peersText (hpeers : ∀ s ∈ peers, ',' ∉ s ∧ ':' ∈ s) :
    peersIn (peersText peers) = peers ∧ (peersText peers = "none".toList ↔ peers = []) := by
  cases peers with
  | nil => exact ⟨rfl, iff_of_true rfl rfl⟩
  | cons s peers =>
      have hcolon : ':' ∈ join ',' (s :: peers) := by
        have hs : ':' ∈ s := (hpeers s List.mem_cons_self).2
        cases peers with
        | nil => simpa [join] using hs
        | cons s' peers => simp [join, hs]
      have htext : peersText (s :: peers) = join ',' (s :: peers) :=
        if_neg fun h => List.ne_nil_of_mem hcolon (List.length_eq_zero_iff.mp h)
      have hnone : peersText (s :: peers) ≠ "none".toList := by
        intro h
        rw [htext] at h
        rw [h] at hcolon
        revert hcolon
        decide
      refine ⟨?_, iff_of_false hnone (List.cons_ne_nil _ _)⟩
      rw [peersIn, if_neg hnone, htext]
      exact split_join (fun s hs => (hpeers s hs).1) (List.cons_ne_nil _ _)

end Texts

/-! ### Partitions -/

section Partitions

variable {α : Type*} {l : List α} {rf p q i t : ℕ} {a : α}

lemma partition_getElem? (hi : i < rf) : (partition l rf p)[i]? = l[p * rf + i]? := by
  have hlt : p * rf + i < (p + 1) * rf := by
    rw [Nat.add_mul, Nat.one_mul]
    exact Nat.add_lt_add_left hi _
  rw [partition, List.getElem?_drop, List.getElem?_take, if_pos hlt]

lemma length_partition : (partition l rf p).length = min rf (l.length - p * rf) := by
  rw [partition, List.length_drop, List.length_take, Nat.add_mul, Nat.one_mul]
  omega

lemma partition_sublist : (partition l rf p).Sublist l :=
  (List.drop_sublist _ _).trans (List.take_sublist _ _)

/-- A place in a list has one partition and one replica. -/
lemma place_inj (hi : i < rf) (ht : t < rf) : p * rf + i = q * rf + t ↔ p = q ∧ i = t := by
  constructor
  · intro h
    have hpq : p = q := by
      have hdiv := congrArg (· / rf) h
      have hpos : 0 < rf := by omega
      simpa [Nat.mul_comm _ rf, Nat.mul_add_div hpos, Nat.div_eq_of_lt hi, Nat.div_eq_of_lt ht]
        using hdiv
    subst hpq
    exact ⟨rfl, by omega⟩
  · rintro ⟨rfl, rfl⟩
    rfl

/-- The rest of a partition holds what stands in another place of it. -/
lemma mem_eraseIdx_partition_iff (hl : l.Nodup) (ha : l[q * rf + t]? = some a) (ht : t < rf)
    (r : ℕ) : a ∈ (partition l rf p).eraseIdx r ↔ p = q ∧ r ≠ t := by
  rw [List.mem_eraseIdx_iff_getElem?]
  constructor
  · rintro ⟨i, hne, hi⟩
    have hlt : i < rf := by
      have := (List.getElem?_eq_some_iff.mp hi).1
      rw [length_partition] at this
      omega
    rw [partition_getElem? hlt] at hi
    have hplace : p * rf + i = q * rf + t :=
      (List.getElem?_inj (List.getElem?_eq_some_iff.mp hi).1 hl).mp (hi.trans ha.symm)
    obtain ⟨rfl, rfl⟩ := (place_inj hlt ht).mp hplace
    exact ⟨rfl, hne.symm⟩
  · rintro ⟨rfl, hne⟩
    exact ⟨t, hne.symm, (partition_getElem? ht).trans ha⟩

end Partitions

/-! ### Replicas and their peers -/

/-- **The nodes of a partition are connected with each other** and with no others: each
has the port of its place in the list, and its peers are the other addresses of its
partition, in the order of the list. -/
theorem mesh (P rf : ℕ) (addrs : List Address) (hlength : addrs.length = P * rf)
    (hnodup : (addrs.map Address.text).Nodup) (p r q t : ℕ) (hp : p < P) (hr : r < rf)
    (hq : q < P) (ht : t < rf) :
    ∃ i j : Address, addrs[p * rf + r]? = some i ∧ addrs[q * rf + t]? = some j
      ∧ portof [serversText addrs, nodeName p r, decimal rf] = .ok i.port
      ∧ ∃ out, peersof [serversText addrs, nodeName p r, decimal rf] = .ok out
        ∧ (j.text ∈ peersIn out ↔ p = q ∧ r ≠ t)
        ∧ (peersIn out).Sublist (addrs.map Address.text) ∧ (peersIn out).Nodup
        ∧ (out = "none".toList ↔ rf = 1) := by
  have hplace {p r : ℕ} (hp : p < P) (hr : r < rf) : (p + 1) * rf ≤ addrs.length
      ∧ p * rf + r < addrs.length := by
    have hle : (p + 1) * rf ≤ P * rf := Nat.mul_le_mul_right rf hp
    rw [hlength]
    refine ⟨hle, lt_of_lt_of_le ?_ hle⟩
    rw [Nat.add_mul, Nat.one_mul]
    exact Nat.add_lt_add_left hr _
  obtain ⟨i, hi⟩ : ∃ i, addrs[p * rf + r]? = some i :=
    ⟨_, List.getElem?_eq_getElem (hplace hp hr).2⟩
  obtain ⟨j, hj⟩ : ∃ j, addrs[q * rf + t]? = some j :=
    ⟨_, List.getElem?_eq_getElem (hplace hq ht).2⟩
  have hne : addrs ≠ [] := fun hnil => by
    rw [hnil] at hi
    cases hi
  have hsplit := split_serversText hne
  have hpart : (partition (addrs.map Address.text) rf p).length = rf := by
    have hle := (hplace hp hr).1
    rw [length_partition, List.length_map]
    rw [Nat.add_mul, Nat.one_mul] at hle
    omega
  refine ⟨i, j, hi, hj, ?_, _, peersof_of_lt (by rw [hsplit, hpart]; exact hr), ?_⟩
  · have htext : (split (serversText addrs) ',')[p * rf + r]? = some (i.ip ++ ':' :: i.port) := by
      rw [hsplit, List.getElem?_map, hi]
      rfl
    have hport : strip i.port ≠ [] := by
      rw [i.strip_port]
      exact i.port_ne_nil
    rw [portof_of_getElem htext i.colon_notMem_ip hport, i.strip_port]
  · rw [hsplit]
    have hsub : ((partition (addrs.map Address.text) rf p).eraseIdx r).Sublist
        (addrs.map Address.text) := (List.eraseIdx_sublist _ _).trans partition_sublist
    obtain ⟨hpeers, hnone⟩ := peersIn_peersText fun s hs => by
      obtain ⟨a, -, rfl⟩ := List.mem_map.mp (hsub.subset hs)
      exact ⟨a.comma_notMem_text, a.colon_mem_text⟩
    rw [hpeers, hnone]
    refine ⟨mem_eraseIdx_partition_iff hnodup ?_ ht r, hsub, hnodup.sublist hsub, ?_⟩
    · rw [List.getElem?_map, hj]
      rfl
    · rw [← List.length_eq_zero_iff, List.length_eraseIdx_of_lt (by rw [hpart]; exact hr), hpart]
      omega

lemma clean_of_all {s : Str} (h : s.all (fun c => c != ':' && c != ',' && !isSpace c) = true) :
    ∀ c ∈ s, c ≠ ':' ∧ c ≠ ',' ∧ isSpace c = false := by
  simpa [and_assoc] using h

/-- Two partitions of two replicas. -/
def fourServers : List Address :=
  [⟨['a'], ['7'], List.cons_ne_nil _ _, clean_of_all rfl⟩,
    ⟨['b'], ['7'], List.cons_ne_nil _ _, clean_of_all rfl⟩,
    ⟨['a'], ['8'], List.cons_ne_nil _ _, clean_of_all rfl⟩,
    ⟨['b'], ['8'], List.cons_ne_nil _ _, clean_of_all rfl⟩]

theorem mesh_four :
    ∃ i j : Address, fourServers[1 * 2 + 0]? = some i ∧ fourServers[1 * 2 + 1]? = some j
      ∧ portof [serversText fourServers, nodeName 1 0, decimal 2] = .ok i.port
      ∧ ∃ out, peersof [serversText fourServers, nodeName 1 0, decimal 2] = .ok out
        ∧ (j.text ∈ peersIn out ↔ 1 = 1 ∧ 0 ≠ 1)
        ∧ (peersIn out).Sublist (fourServers.map Address.text) ∧ (peersIn out).Nodup
        ∧ (out = "none".toList ↔ 2 = 1) :=
  mesh 2 2 fourServers rfl (by decide) 1 0 1 1 (by decide) (by decide) (by decide) (by decide)

/-- A well-formed address: a colon, and a port after it that is not blank. -/
def WellFormed (a : Str) : Prop := ∃ ip port, a = ip ++ ':' :: port ∧ ':' ∉ ip ∧ strip port ≠ []

/-- **Where ports and peers agree on the nodes**: on the replicas that a partition has
room for, and behind the end of the list. A replica with a greater number in the list
has no peers, but the port of another partition. -/
theorem outOfBounds_iff (servers : Str) (hservers : ∀ a ∈ split servers ',', WellFormed a)
    (rf p r : ℕ) :
    (portof [servers, nodeName p r, decimal rf] = .ok []
        ↔ peersof [servers, nodeName p r, decimal rf] = .ok []) ↔
      r < rf ∨ (split servers ',').length ≤ p * rf + r := by
  have hport : portof [servers, nodeName p r, decimal rf] = .ok []
      ↔ (split servers ',').length ≤ p * rf + r := by
    refine ⟨fun h => ?_, portof_of_le⟩
    by_contra hlt
    obtain ⟨a, ha⟩ : ∃ a, (split servers ',')[p * rf + r]? = some a :=
      ⟨_, List.getElem?_eq_getElem (not_le.mp hlt)⟩
    obtain ⟨ip, port, rfl, hip, hne⟩ := hservers a (List.mem_of_getElem? ha)
    rw [portof_of_getElem ha hip hne] at h
    exact hne (Except.ok.inj h)
  have hpeers : peersof [servers, nodeName p r, decimal rf] = .ok []
      ↔ min rf ((split servers ',').length - p * rf) ≤ r := by
    rw [← length_partition]
    refine ⟨fun h => ?_, peersof_of_le⟩
    by_contra hlt
    rw [peersof_of_lt (not_le.mp hlt)] at h
    exact peersText_ne_nil _ (Except.ok.inj h)
  rw [hport, hpeers]
  omega

theorem outOfBounds_iff_two :
    (portof ["a:1,b:2".toList, nodeName 1 0, decimal 1] = .ok []
        ↔ peersof ["a:1,b:2".toList, nodeName 1 0, decimal 1] = .ok []) ↔
      0 < 1 ∨ (split "a:1,b:2".toList ',').length ≤ 1 * 1 + 0 := by
  refine outOfBounds_iff "a:1,b:2".toList ?_ 1 1 0
  have hsplit : split "a:1,b:2".toList ',' = ["a:1".toList, "b:2".toList] := by decide
  simp only [hsplit, List.mem_cons, List.not_mem_nil, or_false]
  rintro a (rfl | rfl)
  · exact ⟨"a".toList, "1".toList, rfl, by decide, by decide⟩
  · exact ⟨"b".toList, "2".toList, rfl, by decide, by decide⟩

/-- The second server of two partitions, as a replica of the first. -/
theorem exists_port_without_peers :
    portof ["a:1,b:2".toList, nodeName 0 1, decimal 1] = .ok "2".toList
      ∧ peersof ["a:1,b:2".toList, nodeName 0 1, decimal 1] = .ok [] := by
  decide

end Madkv.Justmod

import BoundaryTag.Proofs.FreeLists

/-!
# Which chunk is in which list

The free lists repeat what the tags say: list `k` holds the free chunks of class
`k`, each once. The order is free in the bins; the overflow list has the order of
the arena. Chunks enter and leave the lists one by one, and while one is on its
way the lists describe the family without it.

Results:

* `Filed.remove`, `Filed.insert`, `Filed.resize`: the lists follow a chunk that
  leaves, enters or is resized in its place.
* `filed_of_inUse`: chunks in use do not count.
* `Filed.remove_insert`, `FreeLists.remove_resize`: the lists forget how a chunk
  that leaves has come in.
* `Filed.remove_eq_without`, `Filed.without_insert`: all other chunks stay where they are.
-/

namespace BoundaryTag

variable {config : Config} {k : SizeClass} {chunks pre post l : List Chunk} {lists : FreeLists}
  {c d : Chunk}

/-! ## Members of a class -/

namespace Config

/-- The free chunks of class `k`, in the order of the arena. -/
def members (config : Config) (k : SizeClass) (chunks : List Chunk) : List Chunk :=
  chunks.filter fun c => c.isFree && config.classOf c.units = k

theorem mem_members : c ∈ config.members k chunks ↔
    c ∈ chunks ∧ c.isFree ∧ config.classOf c.units = k := by simp [members]

theorem members_append (pre post : List Chunk) :
    config.members k (pre ++ post) = config.members k pre ++ config.members k post :=
  List.filter_append ..

theorem members_cons_self (hfree : c.isFree) (l : List Chunk) :
    config.members (config.classOf c.units) (c :: l) =
      c :: config.members (config.classOf c.units) l := by simp [members, hfree]

theorem members_cons_of_not (h : ¬ (c.isFree ∧ config.classOf c.units = k)) (l : List Chunk) :
    config.members k (c :: l) = config.members k l := by
  apply List.filter_cons_of_neg
  rwa [Bool.and_eq_true, decide_eq_true_eq]

/-- The members around a chunk that is not one itself. -/
theorem members_middle_of_not (h : ¬ (c.isFree ∧ config.classOf c.units = k)) :
    config.members k (pre ++ c :: post) = config.members k (pre ++ post) := by
  rw [members_append, members_append, members_cons_of_not h]

theorem members_middle_self (hfree : c.isFree) (hk : config.classOf c.units = k) :
    config.members k (pre ++ c :: post) = config.members k pre ++ c :: config.members k post := by
  subst hk
  rw [members_append, members_cons_self hfree]

theorem erase_members (hfree : c.isFree) (hc : c ∉ pre ++ post) :
    (config.members (config.classOf c.units) (pre ++ c :: post)).erase c =
      config.members (config.classOf c.units) (pre ++ post) := by
  have hpre : c ∉ config.members (config.classOf c.units) pre := fun h =>
    hc (List.mem_append_left _ (mem_members.mp h).1)
  rw [members_middle_self hfree rfl, List.erase_append_right _ hpre, List.erase_cons_head,
    members_append]

end Config

/-! ## Filed lists -/

/-- Every free chunk is in the list of its class, once, and nothing else is in a list. -/
structure Filed (config : Config) (chunks : List Chunk) (lists : FreeLists) : Prop where
  perm : ∀ k, (lists k).Perm (config.members k chunks)
  /-- The overflow list ascends. -/
  ordered : lists SizeClass.overflow = config.members SizeClass.overflow chunks

namespace FreeLists

/-- The lists without the chunk `c`. -/
def remove (lists : FreeLists) (config : Config) (c : Chunk) : FreeLists :=
  Function.update lists (config.classOf c.units) ((lists (config.classOf c.units)).erase c)

/-- The lists with the chunk `c`, which stands between the chunks `pre` and `post`: at the front of
its bin, or at its place in the overflow list. -/
def insert (lists : FreeLists) (config : Config) (pre : List Chunk) (c : Chunk)
    (post : List Chunk) : FreeLists :=
  Function.update lists (config.classOf c.units)
    (if config.classOf c.units = SizeClass.overflow then
      config.members SizeClass.overflow (pre ++ c :: post)
    else c :: lists (config.classOf c.units))

/-- The lists without the chunks `gone`. -/
def without (lists : FreeLists) (gone : List Chunk) : FreeLists := fun k =>
  (lists k).filter (· ∉ gone)

/-- The lists with the chunk `c` resized in its place. -/
def resize (lists : FreeLists) (config : Config) (c : Chunk) (n : Nat) : FreeLists :=
  Function.update lists (config.classOf c.units)
    ((lists (config.classOf c.units)).replace c (c.withUnits n))

end FreeLists

namespace Filed

theorem mem_iff (F : Filed config chunks lists) :
    c ∈ lists k ↔ c ∈ chunks ∧ c.isFree ∧ config.classOf c.units = k := by
  rw [(F.perm k).mem_iff, Config.mem_members]

/-- A chunk that is no free chunk of the family is in no list. -/
theorem notMem (F : Filed config chunks lists) (hc : ¬ (c ∈ chunks ∧ c.isFree)) (k : SizeClass) :
    c ∉ lists k := fun h => hc ⟨(F.mem_iff.mp h).1, (F.mem_iff.mp h).2.1⟩

theorem nodup (F : Filed config chunks lists) (hc : chunks.Nodup) (k : SizeClass) :
    (lists k).Nodup := (F.perm k).nodup_iff.mpr (hc.filter _)

end Filed

/-- Chunks in use are filed nowhere. -/
theorem filed_of_inUse (hc : c.status = .inUse) :
    Filed config (pre ++ c :: post) lists ↔ Filed config (pre ++ post) lists := by
  have hnot : ∀ k, ¬ (c.isFree ∧ config.classOf c.units = k) := by
    intro k h
    rw [Chunk.isFree_iff, hc] at h
    cases h.1
  constructor
  · rintro ⟨hperm, hordered⟩
    refine ⟨?_, ?_⟩
    · intro k
      rw [← Config.members_middle_of_not (hnot k)]; exact hperm k
    · rw [← Config.members_middle_of_not (hnot _)]; exact hordered
  · rintro ⟨hperm, hordered⟩
    refine ⟨?_, ?_⟩
    · intro k
      rw [Config.members_middle_of_not (hnot k)]; exact hperm k
    · rw [Config.members_middle_of_not (hnot _)]; exact hordered

/-! ## One chunk on its way -/

namespace Filed

/-- Lists that change in one class, where they follow the members. -/
theorem update {chunks' : List Chunk} (F : Filed config chunks lists) (k : SizeClass)
    (hother : ∀ j, j ≠ k → config.members j chunks' = config.members j chunks)
    (hperm : l.Perm (config.members k chunks'))
    (hordered : k = SizeClass.overflow → l = config.members k chunks') :
    Filed config chunks' (Function.update lists k l) := by
  refine ⟨?_, ?_⟩
  · intro j
    by_cases hj : j = k
    · rw [hj, Function.update_self]; exact hperm
    · rw [Function.update_of_ne hj, hother j hj]; exact F.perm j
  · by_cases hk : SizeClass.overflow = k
    · rw [hk, Function.update_self]; exact hordered hk.symm
    · rw [Function.update_of_ne hk, hother _ hk]; exact F.ordered

theorem remove (F : Filed config (pre ++ c :: post) lists) (hfree : c.isFree)
    (hc : c ∉ pre ++ post) : Filed config (pre ++ post) (lists.remove config c) := by
  have herase : (config.members (config.classOf c.units) (pre ++ c :: post)).erase c =
      config.members (config.classOf c.units) (pre ++ post) := Config.erase_members hfree hc
  refine F.update _ ?_ ?_ ?_
  · intro j hj
    exact (Config.members_middle_of_not fun h => hj h.2.symm).symm
  · rw [← herase]; exact (F.perm _).erase c
  · intro hk
    rw [← herase, hk, F.ordered]

theorem insert (F : Filed config (pre ++ post) lists) (hfree : c.isFree) :
    Filed config (pre ++ c :: post) (lists.insert config pre c post) := by
  refine F.update _ (fun j hj => Config.members_middle_of_not fun h => hj h.2.symm) ?_ ?_
  · split
    · rename_i hk; rw [← hk]
    · rw [Config.members_middle_self hfree rfl]
      apply ((F.perm _).cons c).trans
      rw [Config.members_append]
      exact List.perm_middle.symm
  · intro hk
    rw [if_pos hk, hk]

theorem resize {n : Nat} (F : Filed config (pre ++ c :: post) lists) (hfree : c.isFree)
    (hc : c ∉ pre ++ post) (hn : config.classOf n = config.classOf c.units) :
    Filed config (pre ++ c.withUnits n :: post) (lists.resize config c n) := by
  have hfree' : (c.withUnits n).isFree := hfree
  have hmembers := @Config.members_middle_self config _ pre post c hfree rfl
  have hmembers' := @Config.members_middle_self config _ pre post _ hfree' hn
  have hpre : c ∉ config.members (config.classOf c.units) pre := fun h =>
    hc (List.mem_append_left _ (Config.mem_members.mp h).1)
  refine F.update _ ?_ ?_ ?_
  · intro j hj
    rw [Config.members_middle_of_not fun h => hj h.2.symm,
      Config.members_middle_of_not fun h => hj (h.2.symm.trans hn)]
  · rw [hmembers']
    have hperm := F.perm (config.classOf c.units)
    have hin : c ∈ lists (config.classOf c.units) := by rw [hperm.mem_iff, hmembers]; simp
    obtain ⟨l₁, l₂, hl, hl₁⟩ := List.eq_append_cons_of_mem hin
    have hrest : (l₁ ++ l₂).Perm
        (config.members (config.classOf c.units) pre ++
          config.members (config.classOf c.units) post) := by
      refine List.Perm.cons_inv (a := c) (List.perm_middle.symm.trans ?_)
      rw [← hl]
      exact (hperm.trans (by rw [hmembers])).trans List.perm_middle
    rw [hl, List.replace_append_right hl₁, List.replace_cons_self]
    exact (List.perm_middle.trans (hrest.cons _)).trans List.perm_middle.symm
  · intro hk
    rw [hk, F.ordered, ← hk, hmembers, hmembers', List.replace_append_right hpre,
      List.replace_cons_self]

end Filed

/-! ## Ways that end alike -/

/-- A replacement is erased as what it stands for. -/
theorem erase_replace (hd : d ∉ l) : (l.replace c d).erase d = l.erase c := by
  induction l with
  | nil => rfl
  | cons e l ih =>
    rw [List.mem_cons, not_or] at hd
    by_cases hec : e = c
    · rw [hec, List.replace_cons_self, List.erase_cons_head, List.erase_cons_head]
    · have hed : ¬e = d := fun h => hd.1 h.symm
      have hstay : (e :: l).replace c d = e :: l.replace c d := by
        rw [List.replace_cons, beq_false_of_ne (Ne.symm hec)]
      rw [hstay, List.erase_cons_tail (by simpa using hed), ih hd.2,
        List.erase_cons_tail (by simpa using hec)]

namespace FreeLists

/-- It does not matter which of two chunks leaves first. -/
theorem remove_comm (lists : FreeLists) (config : Config) (c d : Chunk) :
    (lists.remove config c).remove config d = (lists.remove config d).remove config c := by
  unfold remove
  by_cases h : config.classOf c.units = config.classOf d.units
  · rw [h, Function.update_self, Function.update_self, Function.update_idem, Function.update_idem,
      List.erase_comm]
  · rw [Function.update_of_ne (Ne.symm h), Function.update_of_ne h, Function.update_comm h]

/-- A chunk leaves from the place where it was resized. -/
theorem remove_resize {n : Nat} (hn : config.classOf n = config.classOf c.units)
    (hnew : c.withUnits n ∉ lists (config.classOf c.units)) :
    (lists.resize config c n).remove config (c.withUnits n) = lists.remove config c := by
  unfold remove resize
  rw [Chunk.units_withUnits, hn, Function.update_self, Function.update_idem, erase_replace hnew]

end FreeLists

/-- A chunk enters and leaves. -/
theorem Filed.remove_insert (F : Filed config (pre ++ post) lists) (hfree : c.isFree)
    (hc : c ∉ pre ++ post) : (lists.insert config pre c post).remove config c = lists := by
  unfold FreeLists.remove FreeLists.insert
  rw [Function.update_self, Function.update_idem, Function.update_eq_self_iff]
  split
  · rename_i hover
    rw [hover, F.ordered, ← hover, Config.erase_members hfree hc]
  · exact List.erase_cons_head ..

/-! ## What stays in the lists -/

namespace FreeLists

theorem mem_without {gone : List Chunk} : c ∈ lists.without gone k ↔ c ∈ lists k ∧ c ∉ gone := by
  simp [without]

theorem without_nil (lists : FreeLists) : lists.without [] = lists := by
  funext k
  exact List.filter_eq_self.mpr fun c _ => by simp

theorem without_append (lists : FreeLists) (l m : List Chunk) :
    lists.without (l ++ m) = (lists.without l).without m := by
  funext k
  unfold without
  rw [List.filter_filter]
  refine List.filter_congr fun c _ => ?_
  simp [Bool.and_comm]

end FreeLists

namespace Filed

/-- Only the chunk that leaves is missing then. -/
theorem remove_eq_without (F : Filed config chunks lists) (hn : chunks.Nodup) (c : Chunk) :
    lists.remove config c = lists.without [c] := by
  funext k
  unfold FreeLists.remove FreeLists.without
  by_cases hk : k = config.classOf c.units
  · subst hk
    rw [Function.update_self, (F.nodup hn _).erase_eq_filter]
    refine List.filter_congr fun d _ => ?_
    by_cases hd : d = c <;> simp [hd]
  · rw [Function.update_of_ne hk]
    refine (List.filter_eq_self.mpr fun d hd => ?_).symm
    have hclass := (F.mem_iff.mp hd).2.2
    have hne : d ≠ c := by
      rintro rfl
      exact hk hclass.symm
    simpa using hne

/-- Only the chunk that enters is new then. -/
theorem without_insert (F : Filed config (pre ++ post) lists) (hfree : c.isFree)
    (hn : (pre ++ c :: post).Nodup) :
    (lists.insert config pre c post).without [c] = lists := by
  have hc : c ∉ pre ++ post := (List.nodup_middle.mp hn).notMem
  rw [← (F.insert hfree).remove_eq_without hn, F.remove_insert hfree hc]

end Filed

end BoundaryTag

import BoundaryTag.Proofs.Chunk

/-!
# Doubly linked sequences

The free lists run through the tags: the header of a chunk links to the next
one, the footer to the previous one. Memory is abstracted to the function that
gives the link in every slot, and a sequence of chunks is threaded by it from
`before` to `after`. Entering and leaving a sequence changes at most four links:
two of the chunk itself, the header of its predecessor and the footer of its
successor.

Results:

* `threaded_append`: a thread may be cut between any two chunks.
* `Threaded.links_eq`: the links in the tags of a sequence are determined by it.
* `Threaded.cons`, `Threaded.insert`, `Threaded.remove`: the three edits.
-/

namespace BoundaryTag

/-- The first chunk of a sequence, or what follows it when it is empty. -/
def entry : List Chunk → Option Nat → Option Nat
  | [], after => after
  | c :: _, _ => some c.index

/-- The last chunk of a sequence, or what precedes it when it is empty. -/
def exit : Option Nat → List Chunk → Option Nat
  | before, [] => before
  | _, c :: rest => exit (some c.index) rest

/-- The chunks are linked both ways in their order, from `before` to `after`. -/
def Threaded (link : Nat → Option Nat) : Option Nat → List Chunk → Option Nat → Prop
  | _, [], _ => True
  | before, c :: rest, after =>
    link c.footer = before ∧ link c.index = entry rest after ∧
      Threaded link (some c.index) rest after

@[simp] theorem entry_nil (after : Option Nat) : entry [] after = after := rfl

@[simp] theorem entry_cons (c : Chunk) (l : List Chunk) (after : Option Nat) :
    entry (c :: l) after = some c.index := rfl

@[simp] theorem entry_append (l m : List Chunk) (after : Option Nat) :
    entry (l ++ m) after = entry l (entry m after) := by cases l <;> rfl

@[simp] theorem exit_concat (before : Option Nat) (l : List Chunk) (c : Chunk) :
    exit before (l ++ [c]) = some c.index := by
  induction l generalizing before with
  | nil => rfl
  | cons d l ih => exact ih _

theorem entry_eq_head? (l : List Chunk) : entry l none = l.head?.map Chunk.index := by
  cases l <;> rfl

theorem mem_entry {l : List Chunk} {i : Nat} (h : i ∈ entry l none) : ∃ c ∈ l, c.index = i := by
  cases l with
  | nil => cases h
  | cons c l => exact ⟨c, by simp, Option.some.inj h⟩

theorem mem_exit {l : List Chunk} {i : Nat} (h : i ∈ exit none l) : ∃ c ∈ l, c.index = i := by
  rcases List.eq_nil_or_concat' l with rfl | ⟨l, c, rfl⟩
  · cases h
  · exact ⟨c, by simp, by simpa using h⟩

theorem threaded_append {link : Nat → Option Nat} {before after : Option Nat} {l m : List Chunk} :
    Threaded link before (l ++ m) after ↔
      Threaded link before l (entry m after) ∧ Threaded link (exit before l) m after := by
  induction l generalizing before with
  | nil => simp [Threaded, exit]
  | cons c l ih =>
    simp only [List.cons_append, Threaded, entry_append, ih, exit]
    tauto

theorem threaded_concat {link : Nat → Option Nat} {before after : Option Nat} {l : List Chunk}
    {c : Chunk} : Threaded link before (l ++ [c]) after ↔
      Threaded link before l (some c.index) ∧ link c.footer = exit before l ∧
        link c.index = after := by
  rw [threaded_append]
  simp [Threaded]

/-- A thread depends on the links in the tags of its chunks only. -/
theorem Threaded.congr {link link' : Nat → Option Nat} {before after : Option Nat}
    {l : List Chunk} (h : Threaded link before l after)
    (hl : ∀ i ∈ tagSlots l, link' i = link i) : Threaded link' before l after := by
  induction l generalizing before with
  | nil => trivial
  | cons c l ih =>
    obtain ⟨hback, hnext, hrest⟩ := h
    refine ⟨?_, ?_, ih hrest fun i hi => hl i (by simp [hi])⟩
    · rw [hl _ (by simp), hback]
    · rw [hl _ (by simp), hnext]

/-- A thread determines the links in the tags of its chunks. -/
theorem Threaded.links_eq {link link' : Nat → Option Nat} {before after : Option Nat}
    {l : List Chunk} (h : Threaded link before l after) (h' : Threaded link' before l after) :
    ∀ i ∈ tagSlots l, link' i = link i := by
  induction l generalizing before with
  | nil => simp
  | cons c l ih =>
    obtain ⟨hback, hnext, hrest⟩ := h
    obtain ⟨hback', hnext', hrest'⟩ := h'
    intro i hi
    simp only [tagSlots_cons, List.mem_cons] at hi
    rcases hi with rfl | rfl | hi
    · exact hnext'.trans hnext.symm
    · exact hback'.trans hback.symm
    · exact ih hrest hrest' i hi

/-! ## Single links -/

/-- The links after the header of the last chunk was set to `v`. -/
def relinkLast (link : Nat → Option Nat) (l : List Chunk) (v : Option Nat) : Nat → Option Nat :=
  match l.getLast? with
  | none => link
  | some c => Function.update link c.index v

/-- The links after the footer of the first chunk was set to `v`. -/
def relinkFirst (link : Nat → Option Nat) (l : List Chunk) (v : Option Nat) : Nat → Option Nat :=
  match l with
  | [] => link
  | c :: _ => Function.update link c.footer v

theorem relinkLast_of_notMem (link : Nat → Option Nat) {l : List Chunk} (v : Option Nat) {i : Nat}
    (hi : i ∉ tagSlots l) : relinkLast link l v i = link i := by
  unfold relinkLast
  cases hc : l.getLast? with
  | none => rfl
  | some c =>
    refine Function.update_of_ne (fun he => hi ?_) _ _
    exact mem_tagSlots.mpr ⟨c, List.mem_of_getLast? hc, .inl he⟩

theorem relinkFirst_of_notMem (link : Nat → Option Nat) {l : List Chunk} (v : Option Nat) {i : Nat}
    (hi : i ∉ tagSlots l) : relinkFirst link l v i = link i := by
  cases l with
  | nil => rfl
  | cons c l =>
    simp only [tagSlots_cons, List.mem_cons, not_or] at hi
    exact Function.update_of_ne hi.2.1 _ _

section Relink

variable {link : Nat → Option Nat} {before after : Option Nat} {l : List Chunk}

theorem Threaded.relinkLast (h : Threaded link before l after) (hl : (tagSlots l).Nodup)
    (v : Option Nat) : Threaded (relinkLast link l v) before l v := by
  rcases List.eq_nil_or_concat' l with rfl | ⟨l, c, rfl⟩
  · trivial
  · rw [threaded_concat] at h ⊢
    simp only [tagSlots_append, tagSlots_cons, tagSlots_nil, List.nodup_append, List.nodup_cons,
      List.mem_cons] at hl
    have hne := c.index_lt_footer
    simp only [BoundaryTag.relinkLast, List.getLast?_concat]
    refine ⟨h.1.congr ?_, ?_, Function.update_self _ _ _⟩
    · intro i hi
      exact Function.update_of_ne (hl.2.2 i hi _ (.inl rfl)) _ _
    · rw [Function.update_of_ne (by omega), h.2.1]

theorem Threaded.relinkFirst (h : Threaded link before l after) (hl : (tagSlots l).Nodup)
    (v : Option Nat) : Threaded (relinkFirst link l v) v l after := by
  cases l with
  | nil => trivial
  | cons c l =>
    obtain ⟨-, hnext, hrest⟩ := h
    simp only [tagSlots_cons, List.nodup_cons] at hl
    have hne := c.index_lt_footer
    refine ⟨Function.update_self _ _ _, ?_, hrest.congr ?_⟩
    · rw [← hnext]; exact Function.update_of_ne (by omega) _ _
    · intro i hi
      refine Function.update_of_ne (fun he => hl.2.1 ?_) _ _
      rw [← he]; exact hi

end Relink

/-! ## Edits -/

/-- The links of `c` set to `next` and `prev`. -/
def relinkSelf (link : Nat → Option Nat) (c : Chunk) (next prev : Option Nat) : Nat → Option Nat :=
  Function.update (Function.update link c.index next) c.footer prev

theorem relinkSelf_of_notMem (link : Nat → Option Nat) {c : Chunk} (next prev : Option Nat)
    {i : Nat} (hi : i ∉ tagSlots [c]) : relinkSelf link c next prev i = link i := by
  simp only [tagSlots_cons, tagSlots_nil, List.mem_cons, List.not_mem_nil, or_false,
    not_or] at hi
  unfold relinkSelf
  rw [Function.update_of_ne hi.2, Function.update_of_ne hi.1]

theorem relinkSelf_index (link : Nat → Option Nat) (c : Chunk) (next prev : Option Nat) :
    relinkSelf link c next prev c.index = next := by
  have := c.index_lt_footer
  unfold relinkSelf
  rw [Function.update_of_ne (by omega), Function.update_self]

theorem relinkSelf_footer (link : Nat → Option Nat) (c : Chunk) (next prev : Option Nat) :
    relinkSelf link c next prev c.footer = prev := Function.update_self _ _ _

/-- The tags on both sides of a chunk, and its own, are apart. -/
theorem nodup_tagSlots_around {l₁ l₂ : List Chunk} {c : Chunk}
    (h : (tagSlots (l₁ ++ c :: l₂)).Nodup) :
    (tagSlots l₁).Nodup ∧ (tagSlots l₂).Nodup ∧ (∀ i ∈ tagSlots l₁, i ∉ tagSlots l₂) ∧
      (∀ i ∈ tagSlots l₁, i ∉ tagSlots [c]) ∧ ∀ i ∈ tagSlots l₂, i ∉ tagSlots [c] := by
  rw [← List.singleton_append, tagSlots_append, tagSlots_append, List.nodup_append,
    List.nodup_append] at h
  obtain ⟨h₁, ⟨-, h₂, hc₂⟩, hdisj⟩ := h
  refine ⟨h₁, h₂, ?_, ?_, fun i hi hi' => hc₂ i hi' i hi rfl⟩
  · intro i hi hi'
    exact hdisj i hi i (List.mem_append_right _ hi') rfl
  · intro i hi hi'
    exact hdisj i hi i (List.mem_append_left _ hi') rfl

namespace Threaded

variable {link : Nat → Option Nat} {l l₁ l₂ : List Chunk} {c : Chunk}

/-- A chunk enters at the front. -/
theorem cons (h : Threaded link none l none) (hl : (tagSlots (c :: l)).Nodup) :
    Threaded (BoundaryTag.relinkFirst (relinkSelf link c (entry l none) none) l (some c.index))
      none (c :: l) none := by
  obtain ⟨-, hl', -, -, hc⟩ := @nodup_tagSlots_around [] l c hl
  refine ⟨?_, ?_, ?_⟩
  · rw [relinkFirst_of_notMem _ _ fun hi => hc _ hi (by simp), relinkSelf_footer]
  · rw [relinkFirst_of_notMem _ _ fun hi => hc _ hi (by simp), relinkSelf_index]
  · refine relinkFirst (h.congr ?_) hl' _
    intro i hi
    exact relinkSelf_of_notMem _ _ _ (hc i hi)

/-- A chunk enters between two others. -/
theorem insert (h : Threaded link none (l₁ ++ l₂) none)
    (hl : (tagSlots (l₁ ++ c :: l₂)).Nodup) :
    Threaded (BoundaryTag.relinkLast (BoundaryTag.relinkFirst
      (relinkSelf link c (entry l₂ none) (exit none l₁)) l₂ (some c.index)) l₁ (some c.index))
      none (l₁ ++ c :: l₂) none := by
  obtain ⟨h₁, h₂⟩ := threaded_append.mp h
  obtain ⟨hl₁, hl₂, h₁₂, h₁c, h₂c⟩ := nodup_tagSlots_around hl
  rw [threaded_append]
  refine ⟨?_, ?_, ?_, ?_⟩
  · refine relinkLast (h₁.congr ?_) hl₁ _
    intro i hi
    rw [relinkFirst_of_notMem _ _ (h₁₂ i hi), relinkSelf_of_notMem _ _ _ (h₁c i hi)]
  · rw [relinkLast_of_notMem _ _ fun hi => h₁c _ hi (by simp),
      relinkFirst_of_notMem _ _ fun hi => h₂c _ hi (by simp), relinkSelf_footer]
  · rw [relinkLast_of_notMem _ _ fun hi => h₁c _ hi (by simp),
      relinkFirst_of_notMem _ _ fun hi => h₂c _ hi (by simp), relinkSelf_index]
  · have g₂ : Threaded (relinkSelf link c (entry l₂ none) (exit none l₁)) (exit none l₁) l₂ none :=
      h₂.congr fun i hi => relinkSelf_of_notMem _ _ _ (h₂c i hi)
    exact (g₂.relinkFirst hl₂ _).congr fun i hi =>
      relinkLast_of_notMem _ _ fun hi' => h₁₂ i hi' hi

/-- A chunk leaves from any place. -/
theorem remove (h : Threaded link none (l₁ ++ c :: l₂) none)
    (hl : (tagSlots (l₁ ++ c :: l₂)).Nodup) :
    Threaded (relinkSelf (BoundaryTag.relinkFirst (BoundaryTag.relinkLast link l₁ (entry l₂ none))
      l₂ (exit none l₁)) c none none) none (l₁ ++ l₂) none := by
  obtain ⟨h₁, -, -, h₂⟩ := threaded_append.mp h
  obtain ⟨hl₁, hl₂, h₁₂, h₁c, h₂c⟩ := nodup_tagSlots_around hl
  rw [threaded_append]
  constructor
  · apply (h₁.relinkLast hl₁ _).congr
    intro i hi
    rw [relinkSelf_of_notMem _ _ _ (h₁c i hi), relinkFirst_of_notMem _ _ (h₁₂ i hi)]
  · have g₂ : Threaded (BoundaryTag.relinkLast link l₁ (entry l₂ none)) (some c.index) l₂ none :=
      h₂.congr fun i hi => relinkLast_of_notMem _ _ fun hi' => h₁₂ i hi' hi
    exact (g₂.relinkFirst hl₂ _).congr fun i hi => relinkSelf_of_notMem _ _ _ (h₂c i hi)

/-- Another chunk at the same index takes the place of a chunk, with its links. -/
theorem replace {link' : Nat → Option Nat} {d : Chunk}
    (h : Threaded link none (l₁ ++ c :: l₂) none) (hindex : d.index = c.index)
    (hback : link' d.footer = link c.footer) (hnext : link' c.index = link c.index)
    (hsides : ∀ i ∈ tagSlots (l₁ ++ l₂), link' i = link i) :
    Threaded link' none (l₁ ++ d :: l₂) none := by
  obtain ⟨h₁, hfooter, hhead, h₂⟩ := threaded_append.mp h
  rw [threaded_append, entry_cons, hindex]
  refine ⟨h₁.congr fun i hi => hsides i (by simp [hi]), hback.trans hfooter, ?_, ?_⟩
  · rw [hindex, hnext, hhead]
  · rw [hindex]
    exact h₂.congr fun i hi => hsides i (by simp [hi])

end Threaded

end BoundaryTag

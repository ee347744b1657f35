import Choreo.Proofs.Program.Valid

/-! # The depth of a program

`Block.depths` counts the levels of a list of blocks. In a program it is the number of indices of
the longest path that leads to a block (`Program.Reachable.depths_le_iff`). -/

namespace Choreo

namespace Block

mutual

/-- The number of levels of a block, its own included. -/
def depth : Block → ℕ
  | ⟨_, _, children⟩ => depths children + 1

/-- The number of levels of a list of blocks. -/
def depths : List Block → ℕ
  | [] => 0
  | b :: rest => max b.depth (depths rest)

end

theorem depth_eq (b : Block) : b.depth = depths b.children + 1 := by
  cases b
  rw [depth]

theorem depths_le_iff {bs : List Block} {n : ℕ} : depths bs ≤ n ↔ ∀ b ∈ bs, b.depth ≤ n := by
  induction bs with
  | nil => simp [depths]
  | cons b rest ih => simp [depths, ih]

theorem depth_le_depths {b : Block} {bs : List Block} (h : b ∈ bs) : b.depth ≤ depths bs :=
  depths_le_iff.mp le_rfl b h

theorem exists_deepest {bs : List Block} (h : bs ≠ []) : ∃ b ∈ bs, b.depth = depths bs := by
  by_contra hnot
  push Not at hnot
  have hlt : ∀ b ∈ bs, b.depth ≤ depths bs - 1 := fun b hb =>
    Nat.le_sub_one_of_lt ((depth_le_depths hb).lt_of_ne (hnot b hb))
  obtain ⟨b, hb⟩ := List.exists_mem_of_ne_nil bs h
  have hdepth := hlt b hb
  have hdepths := depths_le_iff.mpr hlt
  rw [depth_eq] at hdepth
  omega

end Block

open Block (AllValid allValid_iff valid_iff depths)

namespace Forest

theorem length_add_depths_le {walked : Path} {bs cs : List Block} {ks : List ℕ}
    (h : siblings walked bs ks = .ok cs) : ks.length + depths cs ≤ depths bs := by
  induction ks generalizing walked bs with
  | nil =>
    cases h
    exact (Nat.zero_add _).le
  | cons i rest ih =>
    obtain ⟨b, hb, -, hrest⟩ := siblings_cons_iff.mp h
    have hdepth := Block.depth_le_depths (List.mem_of_getElem? hb)
    have hlower := ih hrest
    rw [Block.depth_eq] at hdepth
    rw [List.length_cons]
    omega

theorem exists_siblings {bs : List Block} (hvalid : AllValid bs) (h : bs ≠ []) (walked : Path) :
    ∃ ks cs, siblings walked bs ks = .ok cs ∧ cs ≠ [] ∧ ks.length + 1 = depths bs := by
  induction hn : depths bs generalizing bs walked with
  | zero =>
    obtain ⟨b, -, hb⟩ := Block.exists_deepest h
    rw [hn, Block.depth_eq] at hb
    cases hb
  | succ n ih =>
    obtain ⟨b, hmem, hb⟩ := Block.exists_deepest h
    rw [hn, Block.depth_eq, Nat.add_right_cancel_iff] at hb
    obtain ⟨-, hleaf, hchildren⟩ := valid_iff.mp (allValid_iff.mp hvalid b hmem)
    by_cases hempty : b.children = []
    · rw [hempty] at hb
      exact ⟨[], bs, rfl, h, by rw [← hb]; rfl⟩
    · obtain ⟨i, hi⟩ := List.getElem?_of_mem hmem
      obtain ⟨ks, cs, hcs, hne, hlength⟩ := ih hchildren hempty (walked.child i) hb
      have hcontainer : b.isContainer = true := by
        by_contra hnot
        exact hempty (hleaf (by simpa using hnot))
      exact ⟨i :: ks, cs, siblings_cons_iff.mpr ⟨b, hi, hcontainer, hcs⟩, hne,
        congrArg (· + 1) hlength⟩

end Forest

/-- **The depth of a program** is the length of its longest path. -/
theorem Program.Reachable.depths_le_iff {p : Program} (hp : p.Reachable) {n : ℕ} :
    depths p.toBlocks ≤ n ↔ ∀ path id, p.resolve path = .ok id → path.depth ≤ n := by
  obtain ⟨ts, h⟩ := hp.stores
  have hblocks := h.toBlocks
  constructor
  · intro hdepth path id hpath
    rcases hsplit : path.split? with _ | ⟨parent, i⟩
    · rw [split?_eq_none_iff.mp hsplit, resolve_root] at hpath
      cases hpath
    · rw [h.resolve hsplit] at hpath
      obtain ⟨⟨q, cs⟩, hlocate, hpath⟩ := bind_eq_ok.mp hpath
      obtain ⟨t, hpick, -⟩ := bind_eq_ok.mp hpath
      have hsiblings : Forest.siblings .root p.toBlocks parent.indices = .ok (Tree.blocks cs) := by
        rw [hblocks, Tree.siblings_blocks .root none, hlocate]
        rfl
      have hlength := Forest.length_add_depths_le hsiblings
      have hmem : t.block ∈ Tree.blocks cs := by
        rw [Tree.blocks_eq_map]
        exact List.mem_map_of_mem (List.mem_of_getElem? (Tree.pick_eq_ok_iff.mp hpick))
      have hpositive := Block.depth_le_depths hmem
      rw [Block.depth_eq] at hpositive
      rw [Path.depth, split?_eq_some_iff.mp hsplit, List.length_append, List.length_singleton]
      omega
  · intro hpaths
    by_cases hempty : p.toBlocks = []
    · rw [hempty]
      exact Nat.zero_le n
    · obtain ⟨ks, cs, hcs, hne, hlength⟩ := Forest.exists_siblings hp.allValid hempty .root
      rw [hblocks, Tree.siblings_blocks .root none] at hcs
      rcases hlocate : Tree.locate .root none ts ks with e | ⟨q, us⟩
      · rw [hlocate] at hcs
        cases hcs
      · rw [hlocate] at hcs
        obtain rfl : Tree.blocks us = cs := Except.ok.inj hcs
        obtain ⟨t, more, rfl⟩ : ∃ t more, us = t :: more := by
          rcases us with _ | ⟨t, more⟩
          · exact absurd (Tree.blocks_eq_map []) hne
          · exact ⟨t, more, rfl⟩
        have hpath : p.resolve ⟨ks ++ [0]⟩ = .ok t.id := by
          have hsplit : Path.split? ⟨ks ++ [0]⟩ = some (⟨ks⟩, 0) := split?_eq_some_iff.mpr rfl
          rw [h.resolve hsplit]
          exact bind_eq_ok.mpr ⟨_, hlocate, bind_eq_ok.mpr ⟨t, Tree.pick_eq_ok_iff.mpr rfl, rfl⟩⟩
        have hdepth := hpaths _ _ hpath
        rw [Path.depth, List.length_append, List.length_singleton] at hdepth
        omega

end Choreo

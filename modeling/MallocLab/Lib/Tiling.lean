import Mathlib.Tactic

set_option autoImplicit false

/-! # Tiles laid end to end

A list of tiles, each with a size and a mark, tiles an interval: every tile starts where the
one before it ends. `cells o bs` lists the tiles with the positions they start at, from `o`
on. Cells are ordered and disjoint, and replacing some consecutive tiles by others of
the same total size moves no other cell (`cells_append`).
-/

namespace Tiling

/-- A tile: its size, and a mark of any kind. -/
structure Tile (α : Type) where
  size : Nat
  mark : α
  deriving DecidableEq, Repr

variable {α : Type}

/-- The total size. -/
def span (bs : List (Tile α)) : Nat := (bs.map Tile.size).sum

/-- The tiles with their positions, from `o` on. -/
def cells : Nat → List (Tile α) → List (Nat × Tile α)
  | _, [] => []
  | o, b :: bs => (o, b) :: cells (o + b.size) bs

/-- Split the list at the tile that starts `o` after the first. -/
def splitAt : Nat → List (Tile α) → Option (List (Tile α) × Tile α × List (Tile α))
  | _, [] => none
  | o, b :: bs =>
      if o = 0 then some ([], b, bs)
      else if o < b.size then none
      else (splitAt (o - b.size) bs).map (fun t => (b :: t.1, t.2))

@[simp] theorem span_nil : span ([] : List (Tile α)) = 0 := rfl

@[simp] theorem span_cons (b : Tile α) (bs : List (Tile α)) :
    span (b :: bs) = b.size + span bs := by
  simp [span]

@[simp] theorem span_append (L R : List (Tile α)) : span (L ++ R) = span L + span R := by
  simp [span]

@[simp] theorem cells_nil (o : Nat) : cells o ([] : List (Tile α)) = [] := rfl

@[simp] theorem cells_cons (o : Nat) (b : Tile α) (bs : List (Tile α)) :
    cells o (b :: bs) = (o, b) :: cells (o + b.size) bs := rfl

@[simp] theorem cells_append (o : Nat) (L R : List (Tile α)) :
    cells o (L ++ R) = cells o L ++ cells (o + span L) R := by
  induction L generalizing o with
  | nil => simp
  | cons b L ih => simp [ih, Nat.add_assoc]

theorem cells_shift (d o : Nat) (bs : List (Tile α)) :
    cells (d + o) bs = (cells o bs).map (fun x => (d + x.1, x.2)) := by
  induction bs generalizing o with
  | nil => rfl
  | cons b bs ih => simp [← ih, Nat.add_assoc]

theorem mem_of_mem_cells {o : Nat} {bs : List (Tile α)} {x : Nat × Tile α} (hx : x ∈ cells o bs) :
    x.2 ∈ bs := by
  induction bs generalizing o with
  | nil => cases hx
  | cons b bs ih =>
      rcases List.mem_cons.mp hx with rfl | hx
      · exact List.mem_cons_self
      · exact List.mem_cons_of_mem _ (ih hx)

/-- A cell lies inside the tiled interval. -/
theorem cell_bounds {o : Nat} {bs : List (Tile α)} {x : Nat × Tile α} (hx : x ∈ cells o bs) :
    o ≤ x.1 ∧ x.1 + x.2.size ≤ o + span bs := by
  induction bs generalizing o with
  | nil => cases hx
  | cons b bs ih =>
      rw [span_cons]
      rcases List.mem_cons.mp hx with rfl | hx
      · exact ⟨Nat.le_refl _, by simp only; omega⟩
      · have := ih hx
        omega

/-- A cell splits the list at its tile. -/
theorem cell_split {o : Nat} {bs : List (Tile α)} {x : Nat × Tile α} (hx : x ∈ cells o bs) :
    ∃ L R, bs = L ++ x.2 :: R ∧ x.1 = o + span L := by
  induction bs generalizing o with
  | nil => cases hx
  | cons b bs ih =>
      rcases List.mem_cons.mp hx with rfl | hx
      · exact ⟨[], bs, rfl, rfl⟩
      · obtain ⟨L, R, hbs, ho⟩ := ih hx
        refine ⟨b :: L, R, by rw [hbs]; rfl, ?_⟩
        rw [ho, span_cons, Nat.add_assoc]

theorem cells_eq_nil {o : Nat} {bs : List (Tile α)} (h : cells o bs = []) : bs = [] := by
  cases bs with
  | nil => rfl
  | cons b bs => cases h

/-- A split of the cells is a split of the tiles. -/
theorem cells_eq_append {o : Nat} {bs : List (Tile α)} {X Y : List (Nat × Tile α)}
    (h : cells o bs = X ++ Y) :
    ∃ L R, bs = L ++ R ∧ X = cells o L ∧ Y = cells (o + span L) R := by
  induction X generalizing o bs with
  | nil => exact ⟨[], bs, rfl, rfl, h.symm⟩
  | cons x X ih =>
      rcases bs with _ | ⟨b, bs⟩
      · cases h
      · rw [cells_cons, List.cons_append] at h
        obtain ⟨hx, htail⟩ := List.cons.inj h
        obtain ⟨L, R, rfl, rfl, rfl⟩ := ih htail
        refine ⟨b :: L, R, rfl, by rw [← hx]; rfl, ?_⟩
        rw [span_cons, Nat.add_assoc]

theorem cells_eq_mid {o : Nat} {bs : List (Tile α)} {X Y : List (Nat × Tile α)}
    {x : Nat × Tile α} (h : cells o bs = X ++ x :: Y) :
    ∃ L R, bs = L ++ x.2 :: R ∧ X = cells o L ∧ x.1 = o + span L ∧
      Y = cells (x.1 + x.2.size) R := by
  obtain ⟨L, R, rfl, rfl, hR⟩ := cells_eq_append h
  rcases R with _ | ⟨b, R⟩
  · cases hR
  · rw [cells_cons] at hR
    obtain ⟨rfl, rfl⟩ := List.cons.inj hR
    exact ⟨L, R, rfl, rfl, rfl, rfl⟩

theorem cell_mid (o : Nat) (L : List (Tile α)) (b : Tile α) (R : List (Tile α)) :
    (o + span L, b) ∈ cells o (L ++ b :: R) := by
  simp

theorem forall_cells {o : Nat} {bs : List (Tile α)} {P : Tile α → Prop} :
    (∀ x ∈ cells o bs, P x.2) ↔ ∀ b ∈ bs, P b := by
  constructor
  · intro h b hb
    obtain ⟨L, R, rfl⟩ := List.append_of_mem hb
    exact h _ (cell_mid o L b R)
  · intro h x hx
    exact h x.2 (mem_of_mem_cells hx)

/-- Cells follow one another. -/
theorem cells_ordered (o : Nat) (bs : List (Tile α)) :
    (cells o bs).Pairwise (fun x y => x.1 + x.2.size ≤ y.1) := by
  induction bs generalizing o with
  | nil => exact List.Pairwise.nil
  | cons b bs ih =>
      refine List.pairwise_cons.mpr ⟨fun y hy => ?_, ih _⟩
      exact (cell_bounds hy).1

/-- Two cells are the same or disjoint. -/
theorem cells_apart {o : Nat} {bs : List (Tile α)} {x y : Nat × Tile α} (hx : x ∈ cells o bs)
    (hy : y ∈ cells o bs) :
    x = y ∨ x.1 + x.2.size ≤ y.1 ∨ y.1 + y.2.size ≤ x.1 := by
  induction bs generalizing o with
  | nil => cases hx
  | cons b bs ih =>
      rcases List.mem_cons.mp hx with hx | hx <;> rcases List.mem_cons.mp hy with hy | hy
      · exact Or.inl (hx.trans hy.symm)
      · have := (cell_bounds hy).1
        exact Or.inr (Or.inl (by rw [hx]; exact this))
      · have := (cell_bounds hx).1
        exact Or.inr (Or.inr (by rw [hy]; exact this))
      · exact ih hx hy

theorem cells_apart_of_ne {o : Nat} {bs : List (Tile α)} {x y : Nat × Tile α}
    (hx : x ∈ cells o bs) (hy : y ∈ cells o bs) (hne : x.1 ≠ y.1) :
    x.1 + x.2.size ≤ y.1 ∨ y.1 + y.2.size ≤ x.1 :=
  (cells_apart hx hy).resolve_left fun he => hne (congrArg Prod.fst he)

/-- Tiles of positive size are found by their position. -/
theorem cell_unique {o : Nat} {bs : List (Tile α)} {x y : Nat × Tile α} (hx : x ∈ cells o bs)
    (hy : y ∈ cells o bs) (hpx : 0 < x.2.size) (hpy : 0 < y.2.size) (h : x.1 = y.1) :
    x = y := by
  rcases cells_apart hx hy with h' | h' | h'
  · exact h'
  · omega
  · omega

theorem splitAt_eq {o : Nat} {bs L R : List (Tile α)} {b : Tile α}
    (h : splitAt o bs = some (L, b, R)) : bs = L ++ b :: R := by
  induction bs generalizing o L with
  | nil => cases h
  | cons c bs ih =>
      rw [splitAt] at h
      split at h
      · cases h
        rfl
      · split at h
        · cases h
        · obtain ⟨⟨L', b', R'⟩, ht, heq⟩ := Option.map_eq_some_iff.mp h
          cases heq
          rw [ih ht]
          rfl

theorem splitAt_mid {L R : List (Tile α)} {b : Tile α} (hL : ∀ c ∈ L, 0 < c.size) :
    splitAt (span L) (L ++ b :: R) = some (L, b, R) := by
  induction L with
  | nil => simp [splitAt]
  | cons c L ih =>
      have hc : 0 < c.size := hL c List.mem_cons_self
      have ih' := ih (fun d hd => hL d (List.mem_cons_of_mem _ hd))
      rw [List.cons_append, splitAt, span_cons, if_neg (by omega), if_neg (by omega),
        Nat.add_sub_cancel_left, ih']
      rfl

end Tiling

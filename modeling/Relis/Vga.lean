import Mathlib.Tactic
import Relis.Code.Vga

/-!
# The screen and the page

A terminal that never scrolls writes on a page without an end. The screen always shows the
last 25 rows of that page.
-/

open Relis.Code

namespace Relis.Vga

/-! ## The page -/

structure Page where
  row : Nat
  col : Nat
  cell : Nat → Nat → BitVec 8

namespace Page

def empty : Page := ⟨0, 0, fun _ _ => 32⟩

def write (p : Page) (c : BitVec 8) : Page :=
  { p with cell := fun y x => if y = p.row ∧ x = p.col then c else p.cell y x }

def newline (p : Page) : Page := { p with row := p.row + 1, col := 0 }

def moveTo (p : Page) (col : Nat) : Page := if col < 80 then { p with col := col } else p.newline

def put (p : Page) (c : BitVec 8) : Page :=
  if c = 10 then p.newline
  else if c = 13 then { p with col := 0 }
  else if c = 9 then p.moveTo (8 * (p.col / 8 + 1))
  else if c = 8 then (if p.col = 0 then p else { p with col := p.col - 1 }.write 32)
  else (p.write c).moveTo (p.col + 1)

def height (p : Page) : Nat := max 25 (p.row + 1)

def lastRows (p : Page) (y x : Nat) : BitVec 8 := p.cell (p.height - 25 + y) x

end Page

/-! ## The loops of the screen -/

section Loops

variable {s : Screen} {color : BitVec 8} {y i : Nat}

def character (entry : BitVec 16) : BitVec 8 := entry.setWidth 8

theorem character_mkentry (c color : BitVec 8) : character (mkentry c color) = c := by
  ext i hi
  simp [character, mkentry]

@[simp] theorem store_cells (s : Screen) (i j : Nat) (entry : BitVec 16) :
    (s.store i entry).cells j = if j = i then entry else s.cells j := Function.update_apply ..

theorem blank_row_cells : (blank_row color s y).cells i =
    if y * 80 ≤ i ∧ i < y * 80 + 80 then mkentry 32 color else s.cells i := by
  have hloop : ∀ n,
    ((List.range n).foldl (fun s x => s.store (y * 80 + x) (mkentry 32 color)) s).cells i =
      if y * 80 ≤ i ∧ i < y * 80 + n then mkentry 32 color else s.cells i := by
    intro n
    induction n with
    | zero => simp
    | succ n ih =>
      rw [List.range_succ, List.foldl_append, List.foldl_cons, List.foldl_nil, store_cells, ih]
      grind
  exact hloop 80

theorem copy_row_cells : (copy_row s y).cells i =
    if y * 80 ≤ i ∧ i < y * 80 + 80 then s.cells (i + 80) else s.cells i := by
  have hloop : ∀ n ≤ 80, ∀ i,
      ((List.range n).foldl (fun s x => s.store (y * 80 + x) (s.cells ((y + 1) * 80 + x))) s).cells i =
      if y * 80 ≤ i ∧ i < y * 80 + n then s.cells (i + 80) else s.cells i := by
    intro n
    induction n with
    | zero => simp
    | succ n ih =>
      intro hn i
      have hsource : ¬(y * 80 ≤ (y + 1) * 80 + n ∧ (y + 1) * 80 + n < y * 80 + n) := by omega
      rw [List.range_succ, List.foldl_append, List.foldl_cons, List.foldl_nil, store_cells,
        ih (by omega), ih (by omega), if_neg hsource]
      by_cases hi : i = y * 80 + n
      · rw [if_pos hi, if_pos (by omega), show (y + 1) * 80 + n = i + 80 by omega]
      · rw [if_neg hi]
        exact if_congr (by omega) rfl rfl
  simp only [copy_row, VGA_WIDTH]
  exact hloop 80 le_rfl i

theorem copy_rows_cells (n : Nat) : ((List.range n).foldl copy_row s).cells i =
    if i < n * 80 then s.cells (i + 80) else s.cells i := by
  induction n generalizing i with
  | zero => simp
  | succ n ih =>
    rw [List.range_succ, List.foldl_append, List.foldl_cons, List.foldl_nil, copy_row_cells, ih, ih]
    grind

theorem blank_rows_cells (n : Nat) : ((List.range n).foldl (blank_row color) s).cells i =
    if i < n * 80 then mkentry 32 color else s.cells i := by
  induction n with
  | zero => simp
  | succ n ih =>
    rw [List.range_succ, List.foldl_append, List.foldl_cons, List.foldl_nil, blank_row_cells, ih]
    grind

def Inside (s : Screen) : Prop := ∀ i ∈ s.written, i < 2000

theorem Inside.store (h : Inside s) (hi : i < 2000) (entry : BitVec 16) :
    Inside (s.store i entry) := by
  intro j hj
  rcases List.mem_cons.mp hj with rfl | hj
  · exact hi
  · exact h j hj

theorem Inside.row (entry : Screen → Nat → BitVec 16) (h : Inside s) (hy : y < 25) :
    Inside ((List.range VGA_WIDTH).foldl (fun s x => s.store (y * VGA_WIDTH + x) (entry s x)) s) := by
  apply List.foldlRecOn (motive := Inside) _ _ h
  intro s hs x hx
  rw [List.mem_range] at hx
  simp only [VGA_WIDTH] at hx ⊢
  exact hs.store (by omega) _

theorem Inside.blank_row (h : Inside s) (hy : y < 25) : Inside (blank_row color s y) :=
  h.row (fun _ _ => mkentry 32 color) hy

theorem Inside.copy_row (h : Inside s) (hy : y < 25) : Inside (copy_row s y) :=
  h.row (fun s x => s.cells ((y + 1) * VGA_WIDTH + x)) hy

end Loops

/-! ## What the screen shows -/

structure Shows (v : Code.Vga) (p : Page) : Prop where
  row_lt : v.row < 25
  col_lt : v.col < 80
  row : p.row - 24 + v.row = p.row
  col : p.col = v.col
  cells : ∀ y < 25, ∀ x < 80, character (v.screen.cells (y * 80 + x)) = p.cell (p.row - 24 + y) x
  blank : ∀ y > p.row, ∀ x, p.cell y x = 32
  inside : Inside v.screen

variable {v : Code.Vga} {p : Page}

theorem Shows.cursor (h : Shows v p) : Shows (update_cursor v) p :=
  ⟨h.row_lt, h.col_lt, h.row, h.col, h.cells, h.blank, h.inside⟩

theorem Shows.setcolor (h : Shows v p) (fg bg : BitVec 8) : Shows (terminal_setcolor v fg bg) p :=
  ⟨h.row_lt, h.col_lt, h.row, h.col, h.cells, h.blank, h.inside⟩

theorem Shows.moved (h : Shows v p) {col : Nat} (hcol : col < 80) :
    Shows { v with col := col } { p with col := col } :=
  ⟨h.row_lt, hcol, h.row, rfl, h.cells, h.blank, h.inside⟩

theorem shows_clear (v : Code.Vga) :
    Shows (terminal_clear { v with screen := { v.screen with written := [] } }) .empty := by
  refine ⟨show 0 < 25 by decide, show 0 < 80 by decide, rfl, rfl, ?_, fun _ _ _ => rfl, ?_⟩
  · intro y hy x hx
    show character (((List.range 25).foldl (blank_row v.color) _).cells (y * 80 + x)) = 32
    rw [blank_rows_cells, if_pos (by omega), character_mkentry]
  · apply List.foldlRecOn (motive := Inside) _ _ (by simp [Inside])
    intro s hs y hy
    exact hs.blank_row (List.mem_range.mp hy)

theorem Shows.write (h : Shows v p) (c : BitVec 8) :
    Shows { v with screen := v.screen.store (v.row * 80 + v.col) (mkentry c v.color) }
      (p.write c) := by
  have hrow := h.row_lt
  have hcol := h.col_lt
  refine ⟨hrow, hcol, h.row, h.col, ?_, ?_, h.inside.store (by omega) _⟩
  · intro y hy x hx
    have hat : y * 80 + x = v.row * 80 + v.col ↔ p.row - 24 + y = p.row ∧ x = p.col := by
      have := h.row
      have := h.col
      omega
    rw [store_cells, apply_ite character, character_mkentry, h.cells y hy x hx, Page.write]
    simp only [hat]
  · intro y hy x
    rw [Page.write]
    dsimp only
    rw [if_neg (by rintro ⟨rfl, -⟩; exact lt_irrefl _ hy), h.blank y hy]

theorem vga_scroll_cells (v : Code.Vga) (i : Nat) : (vga_scroll v).screen.cells i =
    if 1920 ≤ i ∧ i < 2000 then mkentry 32 v.color
    else if i < 1920 then v.screen.cells (i + 80) else v.screen.cells i := by
  show (blank_row v.color ((List.range 24).foldl copy_row v.screen) 24).cells i = _
  rw [blank_row_cells, copy_rows_cells]

theorem Inside.scroll (h : Inside v.screen) : Inside (vga_scroll v).screen := by
  apply Inside.blank_row _ (by decide)
  apply List.foldlRecOn (motive := Inside) _ _ h
  intro s hs y hy
  rw [List.mem_range] at hy
  exact hs.copy_row (hy.trans (by decide))

theorem Shows.next_row (h : Shows v p) : Shows (next_row v) p.newline := by
  have hlt := h.row_lt
  have hrow := h.row
  have hblank : ∀ y > p.row + 1, ∀ x, p.cell y x = 32 := fun y hy => h.blank y (by omega)
  unfold Code.next_row
  dsimp only
  by_cases hlast : v.row + 1 = VGA_HEIGHT
  · have hrow24 : v.row + 1 = 25 := hlast
    rw [if_pos hlast]
    refine ⟨show 24 < 25 by decide, show 0 < 80 by decide, ?_, rfl, ?_, hblank, h.inside.scroll⟩
    · show p.row + 1 - 24 + 24 = p.row + 1
      omega
    · intro y hy x hx
      show character ((vga_scroll _).screen.cells _) = p.cell (p.row + 1 - 24 + y) x
      rw [vga_scroll_cells]
      rcases Nat.lt_or_ge y 24 with hy24 | hy24
      · have hcell := h.cells (y + 1) (by omega) x hx
        rw [if_neg (by omega), if_pos (by omega),
          show y * 80 + x + 80 = (y + 1) * 80 + x by omega, hcell]
        congr 1
        omega
      · rw [if_pos (by omega), character_mkentry, h.blank _ (by omega)]
  · have hrow24 : v.row + 1 ≠ 25 := hlast
    rw [if_neg hlast]
    refine ⟨show v.row + 1 < 25 by omega, show 0 < 80 by decide, ?_, rfl, ?_, hblank, h.inside⟩
    · show p.row + 1 - 24 + (v.row + 1) = p.row + 1
      omega
    · intro y hy x hx
      show _ = p.cell (p.row + 1 - 24 + y) x
      rw [show p.row + 1 - 24 = p.row - 24 by omega]
      exact h.cells y hy x hx

theorem Shows.moveTo (h : Shows v p) {col : Nat} {b : Prop} [Decidable b] (hb : b ↔ 80 ≤ col) :
    Shows (if b then Code.next_row { v with col := col } else { v with col := col })
      (p.moveTo col) := by
  unfold Page.moveTo
  rcases Nat.lt_or_ge col 80 with hlt | hge
  · rw [if_neg (fun h => absurd (hb.mp h) (Nat.not_le_of_lt hlt)), if_pos hlt]
    exact h.moved hlt
  · rw [if_pos (hb.mpr hge), if_neg (by omega)]
    exact h.next_row

theorem tab_stop (col : Nat) (h : col < 80) : (col + 8) &&& 0xFFFFFFF8 = 8 * (col / 8 + 1) := by
  revert col
  decide

theorem Shows.putchar (h : Shows v p) (c : BitVec 8) : Shows (terminal_putchar v c) (p.put c) := by
  have hlt := h.col_lt
  have hcol := h.col
  apply Shows.cursor
  unfold Page.put
  split_ifs with hn hr ht hb hpos hzero hzero
  · exact h.next_row
  · exact h.moved (by decide)
  · dsimp only
    rw [tab_stop _ hlt, hcol]
    exact h.moveTo Iff.rfl
  · omega
  · rw [hcol]
    exact (h.moved (show v.col - 1 < 80 by omega)).write 32
  · exact h
  · omega
  · dsimp only
    rw [hcol]
    exact (h.write c).moveTo (show v.col + 1 = 80 ↔ 80 ≤ v.col + 1 by omega)

theorem shows_run (h : Shows v p) (cs : List (BitVec 8)) :
    Shows (cs.foldl terminal_putchar v) (cs.foldl Page.put p) := by
  induction cs generalizing v p with
  | nil => exact h
  | cons c cs ih => exact ih (h.putchar c)

/-- After any characters the screen shows the last rows of the page. -/
theorem terminal_putchar_shows (v0 : Code.Vga) (cs : List (BitVec 8)) :
    let v := cs.foldl terminal_putchar (terminal_clear { v0 with screen := { v0.screen with written := [] } })
    let p := cs.foldl Page.put .empty
    v.row < 25 ∧ v.col < 80 ∧ (∀ i ∈ v.screen.written, i < 2000) ∧
      ∀ y < 25, ∀ x < 80, character (v.screen.cells (y * 80 + x)) = p.lastRows y x := by
  intro v p
  have h : Shows v p := shows_run (shows_clear v0) cs
  refine ⟨h.row_lt, h.col_lt, h.inside, ?_⟩
  intro y hy x hx
  rw [h.cells y hy x hx, Page.lastRows, Page.height]
  congr 1
  omega

end Relis.Vga

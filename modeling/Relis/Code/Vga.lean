import Mathlib.Data.BitVec

/-!
# `kernel/drivers/vga.c`

The text screen. `fbterm_active()` returns 0, so no call goes to the frame buffer.
-/

namespace Relis.Code

def VGA_WIDTH : Nat := 80
def VGA_HEIGHT : Nat := 25

/-- `VGA_MEM`, and the indices written so far. -/
structure Screen where
  cells : Nat → BitVec 16
  written : List Nat

/-- `VGA_MEM[i] = entry` -/
def Screen.store (s : Screen) (i : Nat) (entry : BitVec 16) : Screen :=
  ⟨Function.update s.cells i entry, i :: s.written⟩

/-- `cursor` is what the two cursor registers hold. -/
structure Vga where
  row : Nat
  col : Nat
  color : BitVec 8
  screen : Screen
  cursor : BitVec 16

def mkcolor (fg bg : BitVec 8) : BitVec 8 := fg ||| (bg <<< 4)

def mkentry (c col : BitVec 8) : BitVec 16 := c.setWidth 16 ||| (col.setWidth 16 <<< 8)

def update_cursor (v : Vga) : Vga := { v with cursor := BitVec.ofNat 16 (v.row * VGA_WIDTH + v.col) }

/-- The inner loop of `terminal_clear`, and the last loop of `vga_scroll`. -/
def blank_row (color : BitVec 8) (s : Screen) (y : Nat) : Screen :=
  (List.range VGA_WIDTH).foldl (fun s x => s.store (y * VGA_WIDTH + x) (mkentry 32 color)) s

/-- The inner loop of `vga_scroll`. -/
def copy_row (s : Screen) (y : Nat) : Screen :=
  (List.range VGA_WIDTH).foldl
    (fun s x => s.store (y * VGA_WIDTH + x) (s.cells ((y + 1) * VGA_WIDTH + x))) s

def terminal_clear (v : Vga) : Vga :=
  update_cursor
    { v with screen := (List.range VGA_HEIGHT).foldl (blank_row v.color) v.screen, row := 0, col := 0 }

def terminal_setcolor (v : Vga) (fg bg : BitVec 8) : Vga := { v with color := mkcolor fg bg }

def vga_scroll (v : Vga) : Vga :=
  { v with
    screen := blank_row v.color ((List.range (VGA_HEIGHT - 1)).foldl copy_row v.screen) (VGA_HEIGHT - 1)
    row := VGA_HEIGHT - 1 }

/-- `col = 0; if (++row == VGA_HEIGHT) vga_scroll();` -/
def next_row (v : Vga) : Vga :=
  let v := { v with col := 0, row := v.row + 1 }
  if v.row = VGA_HEIGHT then vga_scroll v else v

/-- `~7u` has 32 bits. -/
def terminal_putchar (v : Vga) (c : BitVec 8) : Vga :=
  update_cursor <|
    if c = 10 then next_row v
    else if c = 13 then { v with col := 0 }
    else if c = 9 then
      let v := { v with col := (v.col + 8) &&& 0xFFFFFFF8 }
      if v.col ≥ VGA_WIDTH then next_row v else v
    else if c = 8 then
      if v.col > 0 then
        let v := { v with col := v.col - 1 }
        { v with screen := v.screen.store (v.row * VGA_WIDTH + v.col) (mkentry 32 v.color) }
      else v
    else
      let v := { v with screen := v.screen.store (v.row * VGA_WIDTH + v.col) (mkentry c v.color) }
      let v := { v with col := v.col + 1 }
      if v.col = VGA_WIDTH then next_row v else v

end Relis.Code

import Hltos.Basic

/-!
# The framebuffer

Pixels are drawn into a back buffer of `width * height` pixels, which `redraw` copies to the screen
word by word. The offset of a pixel is computed from the pitch, so the two agree only where scan
lines are not padded (`inBackBuffer_iff`). The console draws its cells with `draw_char`, whose
assertions leave no room for a cell that ends at the edge of the screen (`drawsEveryCell_iff`).
-/

namespace Hltos

open List

/-- `fb_width`, `fb_height`, `fb_pitch` and `fb_bpp`. -/
structure FrameBufferInfo where
  width : Nat
  height : Nat
  pitch : Nat
  bpp : Nat

namespace FrameBufferInfo

/-- `y * fb_pitch` is a 64-bit product, `x * (fb_bpp / 8)` one of 32 bits. -/
def getPixelOffset (fb : FrameBufferInfo) (x y : Nat) : Nat :=
  (y * fb.pitch + x * (fb.bpp / 8) % 2 ^ 32) % 2 ^ 64

def vramSize (fb : FrameBufferInfo) : Nat := fb.width * fb.height * (fb.bpp / 8) % 2 ^ 64

/-- The bytes that `draw_pixel` stores to and `get_pixel` loads: blue, green and red. -/
def pixelBytes (fb : FrameBufferInfo) (x y : Nat) : List Nat :=
  [0, 1, 2].map fun rgbOff => (fb.getPixelOffset x y + rgbOff) % 2 ^ 64

/-- `redraw`: what `vram` holds afterwards. -/
def redraw (fb : FrameBufferInfo) (vramBuff vram : Nat → Byte) (o : Nat) : Byte :=
  if o / 8 < fb.vramSize / 8 then vramBuff o else vram o

/-- A framebuffer: a scan line holds its pixels, and its memory lies in the address space. -/
structure Valid (fb : FrameBufferInfo) : Prop where
  bpp : fb.bpp = 24 ∨ fb.bpp = 32
  pitch : fb.width * (fb.bpp / 8) ≤ fb.pitch
  memory : fb.pitch * fb.height < 2 ^ 64

/-- The bytes of every pixel are in the back buffer and reach the screen. -/
def InBackBuffer (fb : FrameBufferInfo) : Prop :=
  ∀ x y, x < 2 ^ 32 → y < 2 ^ 32 → x < fb.width → y < fb.height → ∀ o ∈ fb.pixelBytes x y,
    o < fb.vramSize ∧ ∀ vramBuff vram, fb.redraw vramBuff vram o = vramBuff o

theorem redraw_eq_iff {fb : FrameBufferInfo} {o : Nat} :
    (∀ vramBuff vram, fb.redraw vramBuff vram o = vramBuff o) ↔ o / 8 < fb.vramSize / 8 := by
  refine ⟨fun h => ?_, fun h vramBuff vram => if_pos h⟩
  by_contra hn
  have h0 := h (fun _ => 0) (fun _ => 1)
  rw [redraw, if_neg hn] at h0
  exact absurd h0 (by decide)

/-- The offset without wrapping, for a pixel of the screen. -/
theorem mem_pixelBytes {fb : FrameBufferInfo} {x y o : Nat} (hv : fb.Valid) (hx : x < fb.width)
    (hy : y < fb.height) : o ∈ fb.pixelBytes x y ↔
      ∃ k < 3, o = y * fb.pitch + x * (fb.bpp / 8) % 2 ^ 32 + k := by
  -- the pixel ends before its scan line does, and that before the end of the memory
  have hrow : (y + 1) * fb.pitch ≤ fb.height * fb.pitch := Nat.mul_le_mul_right _ hy
  have hend : x * (fb.bpp / 8) + 3 ≤ fb.pitch := by
    have hpitch := hv.pitch
    rcases hv.bpp with hb | hb <;> rw [hb] at hpitch ⊢ <;> omega
  have hle := Nat.mod_le (x * (fb.bpp / 8)) (2 ^ 32)
  have hmem := hv.memory
  rw [Nat.succ_mul, Nat.mul_comm fb.height] at hrow
  simp only [pixelBytes, getPixelOffset, map_cons, map_nil, mem_cons, not_mem_nil, or_false]
  constructor
  · rintro (rfl | rfl | rfl)
    · exact ⟨0, by omega, by omega⟩
    · exact ⟨1, by omega, by omega⟩
    · exact ⟨2, by omega, by omega⟩
  · rintro ⟨k, hk, rfl⟩
    omega

/-- The pixels stay in the back buffer exactly if the last one does: it is at most at column
`(2 ^ 32 - 1) / bytes`, where the 32-bit product ends. -/
theorem inBackBuffer_iff (fb : FrameBufferInfo) (hv : fb.Valid) : fb.InBackBuffer ↔
    fb.width = 0 ∨ fb.height = 0 ∨
      min (fb.height - 1) (2 ^ 32 - 1) * fb.pitch
        + min (fb.width - 1) ((2 ^ 32 - 1) / (fb.bpp / 8)) * (fb.bpp / 8) + 3
        ≤ fb.width * fb.height * (fb.bpp / 8) / 8 * 8 := by
  have hsize : fb.vramSize = fb.width * fb.height * (fb.bpp / 8) := by
    apply Nat.mod_eq_of_lt
    calc fb.width * fb.height * (fb.bpp / 8) = fb.width * (fb.bpp / 8) * fb.height :=
          Nat.mul_right_comm _ _ _
      _ ≤ fb.pitch * fb.height := Nat.mul_le_mul_right _ hv.pitch
      _ < 2 ^ 64 := hv.memory
  simp only [InBackBuffer, redraw_eq_iff, hsize]
  generalize fb.width * fb.height * (fb.bpp / 8) = size
  constructor
  · intro h
    by_cases hw : fb.width = 0
    · exact Or.inl hw
    by_cases hh : fb.height = 0
    · exact Or.inr (Or.inl hh)
    have hx : min (fb.width - 1) ((2 ^ 32 - 1) / (fb.bpp / 8)) < fb.width := by omega
    have hy : min (fb.height - 1) (2 ^ 32 - 1) < fb.height := by omega
    have hlast := h _ _ (by rcases hv.bpp with hb | hb <;> rw [hb] <;> omega) (by omega) hx hy _
      ((mem_pixelBytes hv hx hy).mpr ⟨2, by omega, rfl⟩)
    rw [Nat.mod_eq_of_lt (by rcases hv.bpp with hb | hb <;> rw [hb] <;> omega)] at hlast
    omega
  · intro h x y hx hy hxw hyh o ho
    obtain ⟨k, hk, rfl⟩ := (mem_pixelBytes hv hxw hyh).mp ho
    have hrow : y * fb.pitch ≤ min (fb.height - 1) (2 ^ 32 - 1) * fb.pitch :=
      Nat.mul_le_mul_right _ (by omega)
    have hcol : x * (fb.bpp / 8) % 2 ^ 32 ≤
        min (fb.width - 1) ((2 ^ 32 - 1) / (fb.bpp / 8)) * (fb.bpp / 8) := by
      rcases hv.bpp with hb | hb <;> rw [hb] <;> omega
    omega

/-- A 1366 by 768 screen whose scan lines are padded to 64 bytes. -/
def padded : FrameBufferInfo := ⟨1366, 768, 5504, 32⟩

theorem unpadded_inBackBuffer : (FrameBufferInfo.mk 1366 768 5464 32).InBackBuffer :=
  (inBackBuffer_iff _ ⟨Or.inr rfl, by decide, by decide⟩).mpr (Or.inr (Or.inr (by decide)))

theorem padded_outside :
    padded.Valid ∧ padded.vramSize = 4196352 ∧ 4221568 ∈ padded.pixelBytes 0 767 ∧
    ¬ padded.InBackBuffer := by
  have hmem : 4221568 ∈ padded.pixelBytes 0 767 := by decide
  refine ⟨⟨Or.inr rfl, by decide, by decide⟩, by decide, hmem, fun h => ?_⟩
  exact absurd (h 0 767 (by decide) (by decide) (by decide) (by decide) _ hmem).1 (by decide)

/-! ## The cells of the console -/

/-- The pixels of `w` columns and `h` rows from `(x, y)`. -/
def rect (x y w h : Nat) : List (Nat × Nat) :=
  (List.range w).flatMap fun gx => (List.range h).map fun gy => (x + gx, y + gy)

/-- `draw_char` in the 8 by 16 font: the pixels it draws, `none` where an assertion fails. Without a
background only those of the glyph are drawn. -/
def drawChar (fb : FrameBufferInfo) (x y : Nat) (glyph : Nat → Byte) (bg : Int) :
    Option (List (Nat × Nat)) :=
  if (x + 8) % 2 ^ 32 < fb.width ∧ (y + 16) % 2 ^ 32 < fb.height then
    some ((rect x y 8 16).filter fun p =>
      (glyph (p.2 - y)).getLsbD (7 - (p.1 - x)) || decide (0 ≤ bg))
  else none

def screenCols (fb : FrameBufferInfo) : Nat := fb.width % 2 ^ 32 / 8

def screenRows (fb : FrameBufferInfo) : Nat := fb.height % 2 ^ 32 / 16

/-- A space is drawn by `fill_rect`, which asserts nothing. -/
def drawCharacterAt (fb : FrameBufferInfo) (font : Byte → Nat → Byte) (c : Byte) (row col : Nat)
    (bg : Int) : Option (List (Nat × Nat)) :=
  if c = 32 then some (rect (col * 8 % 2 ^ 32) (row * 16 % 2 ^ 32) 8 16)
  else fb.drawChar (col * 8 % 2 ^ 32) (row * 16 % 2 ^ 32) (font c) bg

structure ConsoleChar where
  c : Byte
  bg : Int
  dirty : Bool

/-- What the loops of the console's `redraw` draw at a cell of the viewport, given its characters.
-/
def redrawCell (fb : FrameBufferInfo) (font : Byte → Nat → Byte) (drawClean : Bool)
    (currentBg : Int) (chars : List ConsoleChar) (row col : Nat) : Option (List (Nat × Nat)) :=
  match chars[col]? with
  | some cc => if drawClean || cc.dirty then fb.drawCharacterAt font cc.c row col cc.bg else some []
  | none => fb.drawCharacterAt font 32 row col currentBg

/-- The drawing calls of the console's `redraw`, over the lines from `viewport_offset` on. -/
def redrawLines (fb : FrameBufferInfo) (font : Byte → Nat → Byte) (drawClean : Bool)
    (currentBg : Int) (lines : List (List ConsoleChar)) : List (Option (List (Nat × Nat))) :=
  (lines.take fb.screenRows).zipIdx.flatMap fun (line, row) =>
    (List.range fb.screenCols).map (fb.redrawCell font drawClean currentBg line row)

/-- Every cell can be drawn, on the screen. -/
def CellsDrawn (fb : FrameBufferInfo) : Prop :=
  ∀ font c row col bg, row < fb.screenRows → col < fb.screenCols →
    ∃ pixels, fb.drawCharacterAt font c row col bg = some pixels ∧
      ∀ p ∈ pixels, p.1 < fb.width ∧ p.2 < fb.height

/-- Every cell can be drawn, and no text makes `redraw` panic. -/
structure DrawsEveryCell (fb : FrameBufferInfo) : Prop where
  cell : fb.CellsDrawn
  text : ∀ font drawClean currentBg lines, none ∉ fb.redrawLines font drawClean currentBg lines

variable {fb : FrameBufferInfo} {row col : Nat}

theorem lt_of_mem_rect {x y w h : Nat} {p : Nat × Nat} (hp : p ∈ rect x y w h) :
    p.1 < x + w ∧ p.2 < y + h := by
  simp only [rect, mem_flatMap, mem_range, mem_map] at hp
  obtain ⟨gx, hgx, gy, hgy, rfl⟩ := hp
  exact ⟨by omega, by omega⟩

theorem cell_inside (hrow : row < fb.screenRows) (hcol : col < fb.screenCols) :
    col * 8 % 2 ^ 32 = col * 8 ∧ row * 16 % 2 ^ 32 = row * 16 ∧
      col * 8 + 8 ≤ fb.width % 2 ^ 32 ∧ row * 16 + 16 ≤ fb.height % 2 ^ 32 := by
  unfold screenRows at hrow
  unfold screenCols at hcol
  omega

theorem CellsDrawn.drawsEveryCell (h : fb.CellsDrawn) : fb.DrawsEveryCell := by
  refine ⟨h, fun font drawClean currentBg lines hmem => ?_⟩
  simp only [redrawLines, mem_flatMap, mem_map, mem_range] at hmem
  obtain ⟨⟨line, row⟩, hline, col, hcol, hnone⟩ := hmem
  have hrow : row < fb.screenRows :=
    Nat.lt_of_lt_of_le (snd_lt_of_mem_zipIdx hline) (length_take_le _ _)
  unfold redrawCell at hnone
  split at hnone
  · next cc _ =>
    obtain ⟨pixels, hsome, -⟩ := h font cc.c row col cc.bg hrow hcol
    rw [hsome] at hnone
    split at hnone <;> cases hnone
  · obtain ⟨pixels, hsome, -⟩ := h font 32 row col currentBg hrow hcol
    exact absurd (hsome.symm.trans hnone) (Option.some_ne_none _)

/-- The assertions are strict: a cell that ends at the right or lower edge cannot be drawn. -/
theorem drawsEveryCell_iff (fb : FrameBufferInfo) :
    fb.DrawsEveryCell ↔ fb.screenCols = 0 ∨ fb.screenRows = 0 ∨
      ((fb.width % 8 ≠ 0 ∨ 2 ^ 32 ≤ fb.width) ∧ (fb.height % 16 ≠ 0 ∨ 2 ^ 32 ≤ fb.height)) := by
  constructor
  · intro h
    by_cases hcols : fb.screenCols = 0
    · exact Or.inl hcols
    by_cases hrows : fb.screenRows = 0
    · exact Or.inr (Or.inl hrows)
    have hrow : fb.screenRows - 1 < fb.screenRows := by omega
    have hcol : fb.screenCols - 1 < fb.screenCols := by omega
    obtain ⟨pixels, hdraw, -⟩ := h.cell (fun _ _ => 0) 65 _ _ 0 hrow hcol
    obtain ⟨hx, hy, -⟩ := cell_inside hrow hcol
    rw [drawCharacterAt, if_neg (by decide), hx, hy, drawChar] at hdraw
    split at hdraw
    · next hassert =>
      unfold screenCols at hcols hassert
      unfold screenRows at hrows hassert
      omega
    · cases hdraw
  · intro h
    apply CellsDrawn.drawsEveryCell
    intro font c row col bg hrow hcol
    obtain ⟨hx, hy, hw, hh⟩ := cell_inside hrow hcol
    have hmem : ∀ p ∈ rect (col * 8) (row * 16) 8 16, p.1 < fb.width ∧ p.2 < fb.height := by
      intro p hp
      have hlt := lt_of_mem_rect hp
      omega
    rw [drawCharacterAt, hx, hy]
    split
    · exact ⟨_, rfl, hmem⟩
    · rw [drawChar, if_pos (by omega)]
      exact ⟨_, rfl, fun p hp => hmem p (mem_filter.mp hp).1⟩

/-- A full line of text on a screen of 1024 by 768 pixels. -/
theorem lastColumn_panics : ¬ (FrameBufferInfo.mk 1024 768 4096 32).DrawsEveryCell := by
  intro h
  exact h.text (fun _ _ => 0) true 0 [List.replicate 128 ⟨65, 0, true⟩] (by decide)

end FrameBufferInfo

end Hltos

import Pigfx.Gfx.Movement
import Pigfx.Gfx.Commands

/-!
# Lists of rendition parameters

`ESC [ .. m` reads its parameters from the left; a colour number takes three of them.  A list
that does not end within a colour number can be cut off from what follows, and sent as a
sequence of its own.

## Main definitions

* `Style.endsWhole` — lists that do not end within a colour number.
* `rendition` — the sequence of a list.
* `rendition_append` — one sequence for two.
-/

namespace Pigfx
open Lib

/-! ## Lists that can be cut off -/

namespace Style

/-- The list ends where a parameter ends, and not within a colour number. -/
def endsWhole : List ℕ → Bool
  | [] => true
  | 38 :: 5 :: _ :: ps => endsWhole ps
  | 48 :: 5 :: _ :: ps => endsWhole ps
  | [38] | [48] | [38, 5] | [48, 5] => false
  | _ :: ps => endsWhole ps

/-- A number that begins no colour in a list begins none in a longer one. -/
theorem not_colour {p c : ℕ} {ps : List ℕ} (hthree : ∀ v vs, p = c → ps = 5 :: v :: vs → False)
    (hone : p = c → ps = [] → False) (htwo : p = c → ps = [5] → False) (ys : List ℕ) :
    ¬(p = c ∧ 2 ≤ (ps ++ ys).length ∧ (ps ++ ys).getD 0 0 = 5) := by
  rintro ⟨hp, -, hfive⟩
  match ps with
  | [] => exact hone hp rfl
  | [q] =>
    obtain rfl : q = 5 := hfive
    exact htwo hp rfl
  | q :: v :: vs =>
    obtain rfl : q = 5 := hfive
    exact hthree v vs hp rfl

/-- **A list that ends whole acts first**, whatever follows it. -/
theorem selectAll_append {xs : List ℕ} (h : endsWhole xs) (ys : List ℕ) (s : Style) :
    selectAll (xs ++ ys) s = selectAll ys (selectAll xs s) := by
  induction xs using endsWhole.induct generalizing s with
  | case1 => rfl
  | case2 v ps ih => exact ih h _
  | case3 v ps ih => exact ih h _
  | case4 => exact absurd h (by decide)
  | case5 => exact absurd h (by decide)
  | case6 => exact absurd h (by decide)
  | case7 => exact absurd h (by decide)
  | case8 p ps h38 h48 h38' h48' h385 h485 ih =>
    have hps : endsWhole ps := by rwa [endsWhole] at h <;> assumption
    have hall := selectAll_cons (not_colour h38 h38' h385 ys) (not_colour h48 h48' h485 ys) s
    have hxs := selectAll_cons (not_colour h38 h38' h385 []) (not_colour h48 h48' h485 []) s
    rw [List.append_nil] at hxs
    rw [List.cons_append, hall, hxs]
    exact ih hps _

end Style

/-! ## The style of a terminal -/

section Style
variable (b : Build) {t : Term}

/-- The fix-ups move the cursor and leave the style alone. -/
theorem style_fixups (g : Gfx) : (scrollFixup (wrapFixup g)).ctx.style = g.ctx.style := by
  have hwrap : (wrapFixup g).ctx.style = g.ctx.style := by
    rw [wrapFixup]
    split <;> rfl
  rw [← hwrap, scrollFixup]
  split <;> rfl

/-- The style after a byte is the style after what the scanner makes of it. -/
theorem style_putByte (ch : Byte) :
    (putByte b ch t).g.ctx.style = (byteAction b ch { t with g := t.g.draw dmaWait }).g.ctx.style :=
  style_fixups _

/-- Parameters do not change it. -/
theorem style_parameters (bytes : List Byte) (hb : ∀ ch ∈ bytes, isParameter ch) (hat : atLetter t.scn) :
    (runBytes b t bytes).g.ctx.style = t.g.ctx.style ∧ atLetter (runBytes b t bytes).scn := by
  induction bytes generalizing t with
  | nil => exact ⟨rfl, hat⟩
  | cons ch bytes ih =>
      have hch := hb ch List.mem_cons_self
      have hstyle : (putByte b ch t).g.ctx.style = t.g.ctx.style := by
        rw [style_putByte, byteAction_parameter b (t := { t with g := t.g.draw dmaWait }) hat hch]
        rfl
      have hat' : atLetter (putByte b ch t).scn := by
        rw [putByte_scn]
        exact Or.inr (next_scan_parameter hch hat)
      obtain ⟨hrest, hlast⟩ := ih (fun x hx => hb x (List.mem_cons_of_mem _ hx)) hat'
      exact ⟨hrest.trans hstyle, hlast⟩

/-- Neither does `ESC [`. -/
theorem style_opened (hn : t.scn.next = .normaltext) :
    (runBytes b t [TERM_ESCAPE_CHAR, chr '[']).g.ctx.style = t.g.ctx.style := by
  change (putByte b (chr '[') (putByte b TERM_ESCAPE_CHAR t)).g.ctx.style = _
  have hesc : (putByte b TERM_ESCAPE_CHAR t).g.ctx.style = t.g.ctx.style := by
    rw [style_putByte, byteAction_escape b (t := { t with g := t.g.draw dmaWait }) hn]
    rfl
  have hn' : (putByte b TERM_ESCAPE_CHAR t).scn.next = .waitsquarebracket := by
    rw [putByte_scn, scan, if_neg (by decide), scanText, hn]
    rfl
  generalize putByte b TERM_ESCAPE_CHAR t = t₁ at *
  rw [style_putByte, byteAction_bracket b (t := { t₁ with g := t₁.g.draw dmaWait }) hn']
  exact hesc

end Style

/-! ## Sequences of parameters -/

/-- `ESC [ x ; .. m` -/
def rendition : List Numeral → List Byte
  | [] => sequenceOf none [] [] (chr 'm')
  | x :: xs => sequenceOf none x.1 (xs.map Subtype.val) (chr 'm')

/-- The numbers as the scanner keeps them. -/
def renditionValues (xs : List Numeral) : List ℕ := xs.map fun x => decimal x.1 % 2 ^ 32

/-- A sequence without parameters resets, as one with an empty parameter does. -/
theorem select_sequenceValues (d : List Byte) (ds : List (List Byte)) (s : Style) :
    s.select (sequenceValues d ds) = Style.selectAll ((d :: ds).map fun e => decimal e % 2 ^ 32) s := by
  rw [sequenceValues]
  split
  · rename_i hnone
    obtain ⟨rfl, rfl⟩ := hnone
    rfl
  · rw [Style.select, if_neg (by simp)]

/-- Between two sequences, and with no parameter pending. -/
structure Term.Between (t : Term) : Prop where
  next : t.scn.next = .normaltext
  ready : t.scn.Ready

section Rendition
variable (b : Build) {t : Term} (h : t.Between)
include h

/-- The letter selects the rendition that the parameters ask for. -/
theorem style_sequence (d : List Byte) (ds : List (List Byte)) (hd : ∀ e ∈ d :: ds, ∀ x ∈ e, isDigit x)
    (hlen : ds.length + 1 ≤ CMD_PARAMS_LENGTH) :
    let t' := gfxTermPutstring b (sequenceOf none d ds (chr 'm')) t
    t'.g.ctx.style = t.g.ctx.style.select (sequenceValues d ds) ∧ t'.Between := by
  intro t'
  have hL : isFinal (chr 'm') := by decide
  have hread : t' = putByte b (chr 'm') (runBytes b (runBytes b t [TERM_ESCAPE_CHAR, chr '['])
      (d ++ ds.flatMap fun e => chr ';' :: e)) := by
    change gfxTermPutstring b _ t = _
    rw [putstring_sequenceOf b t (by simp) hd hL.2.2.2, runBytes_sequence]
    rfl
  have hopened := style_opened b h.next
  have hscn : (runBytes b t [TERM_ESCAPE_CHAR, chr '[']).scn = t.scn.opened := by
    rw [scn_runBytes, foldl_opened h.next]
  obtain ⟨hmode, hreads⟩ := reads_parameters b h.next h.ready hd hlen
  have hready := ready_runBytes b h.ready (cString (sequenceOf none d ds (chr 'm')))
  change t'.scn.Ready at hready
  generalize runBytes b t [TERM_ESCAPE_CHAR, chr '['] = t₁ at *
  obtain ⟨hbody, hat⟩ := style_parameters b (t := t₁) _ (isParameter_body hd) (Or.inl (by rw [hscn]; rfl))
  generalize runBytes b t₁ (d ++ ds.flatMap fun e => chr ';' :: e) = t₂ at *
  obtain ⟨hg, hnext⟩ := putByte_final b hat hL (by decide)
  refine ⟨?_, by rw [hread]; exact hnext, hready⟩
  have hletter : finalLetterAction b (chr 'm') t₂.scn (t₂.g.draw dmaWait) =
      { t₂.g.draw dmaWait with ctx := t₂.g.ctx.selectGraphicRendition t₂.scn } := by
    rw [finalLetterAction, if_neg (by rw [hmode]; decide), if_neg (by rw [hmode]; decide),
      if_neg (by rw [hmode]; decide), if_neg (by rw [hmode]; decide)]
    rfl
  rw [hread, hg, style_fixups, hletter, ← hopened, ← hbody]
  exact style_selectGraphicRendition hreads _

/-- So does a list of numerals; the empty list asks for a reset. -/
theorem style_rendition (xs : List Numeral) (hlen : xs.length ≤ CMD_PARAMS_LENGTH) :
    let t' := gfxTermPutstring b (rendition xs) t
    t'.g.ctx.style = t.g.ctx.style.select (renditionValues xs) ∧ t'.Between := by
  intro t'
  cases xs with
  | nil => exact style_sequence b h [] [] (by simp) (by decide)
  | cons x xs =>
      obtain ⟨hstyle, hbetween⟩ := style_sequence b h x.1 (xs.map Subtype.val) (x.digits xs)
        (by rw [List.length_map]; exact hlen)
      refine ⟨?_, hbetween⟩
      have hvalues : (x.1 :: xs.map Subtype.val).map (fun e => decimal e % 2 ^ 32) =
          renditionValues (x :: xs) := by
        rw [List.map_cons, List.map_map]
        rfl
      change (gfxTermPutstring b (rendition (x :: xs)) t).g.ctx.style = _
      rw [rendition, hstyle, select_sequenceValues, hvalues, Style.select, if_neg]
      rw [renditionValues, List.map_cons]
      exact List.cons_ne_nil _ _

end Rendition

/-- **One sequence for two**: a list that ends whole may be cut off and sent on its own.
`ESC [ m` is `ESC [ 0 m`. -/
theorem rendition_append (b : Build) (t : Term) (h : t.Between) (xs ys : List Numeral) (hx : xs ≠ [])
    (hy : ys ≠ []) (hlen : xs.length + ys.length ≤ CMD_PARAMS_LENGTH)
    (hwhole : Style.endsWhole (renditionValues xs)) :
    (gfxTermPutstring b (rendition (xs ++ ys)) t).g.ctx.style =
        (gfxTermPutstring b (rendition ys) (gfxTermPutstring b (rendition xs) t)).g.ctx.style ∧
      (gfxTermPutstring b (text "\x1b[m") t).g.ctx.style =
        (gfxTermPutstring b (text "\x1b[0m") t).g.ctx.style := by
  constructor
  · obtain ⟨hxs, hbetween⟩ := style_rendition b h xs (by omega)
    obtain ⟨hys, -⟩ := style_rendition b hbetween ys (by omega)
    obtain ⟨hboth, -⟩ := style_rendition b h (xs ++ ys) (by rw [List.length_append]; exact hlen)
    have hsome : ∀ zs : List Numeral, zs ≠ [] → ∀ s : Style,
        s.select (renditionValues zs) = Style.selectAll (renditionValues zs) s := by
      intro zs hz s
      exact if_neg (fun hnil => hz (List.map_eq_nil_iff.mp hnil))
    have hvalues : renditionValues (xs ++ ys) = renditionValues xs ++ renditionValues ys := List.map_append
    rw [hboth, hys, hxs, hsome _ hx, hsome _ hy, hsome _ (by simp [hx]), hvalues]
    exact Style.selectAll_append hwhole _ _
  · have hbare := (style_rendition b h [] (by decide)).1
    have hzero := (style_rendition b h [⟨text "0", by decide⟩] (by decide)).1
    exact hbare.trans hzero.symm

/-- Colour 200 on a blue ground: `ESC [ 38 ; 5 ; 200 ; 44 m`. -/
theorem rendition_append_colour :
    let t := Term.start .shipped 0 640 480 640 307200 (fun _ => 0)
    let xs : List Numeral := [⟨text "38", by decide⟩, ⟨text "5", by decide⟩, ⟨text "200", by decide⟩]
    let ys : List Numeral := [⟨text "44", by decide⟩]
    rendition (xs ++ ys) = text "\x1b[38;5;200;44m" ∧
      (gfxTermPutstring .shipped (rendition (xs ++ ys)) t).g.ctx.style =
        (gfxTermPutstring .shipped (rendition ys)
          (gfxTermPutstring .shipped (rendition xs) t)).g.ctx.style := by
  intro t xs ys
  have hready : t.scn.Ready := ⟨fun _ => rfl, by decide⟩
  refine ⟨by decide, ?_⟩
  exact (rendition_append .shipped t ⟨rfl, hready⟩ xs ys (by simp [xs]) (by simp [ys])
    (by simp [xs, ys, CMD_PARAMS_LENGTH]) (by decide)).1

end Pigfx

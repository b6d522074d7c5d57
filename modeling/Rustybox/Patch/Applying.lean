import Rustybox.Patch.Search

/-!
# Applying a hunk

Whether `apply_one_hunk` does what a hunk says.  A hunk with nothing on its new side is not searched
for at all, and a line that begins with the byte 3 is lost when it is flushed.
-/

namespace Rustybox.Patch

open Rust

variable {o : Options}

/-! ### Gathered hunks -/

/-- The lines agree with the header. -/
structure Agrees (h : Hunk) : Prop where
  some_ : h.lines ≠ []
  oldlen : h.oldlen = (side false h.lines).length
  newlen : h.newlen = (side true h.lines).length

/-- A hunk of the patch, with the lengths of its header. -/
def Gathered (oldlen newlen : ℤ) (patch : List Str) (h : Hunk) : Prop :=
  gather ⟨[], oldlen, newlen, 0⟩ oldlen newlen true 0 [] patch = some h

/-- The first place of the hunk in the input. -/
structure Site (o : Options) (h : Hunk) (input before after : List Str) : Prop where
  place : Place (matchEof h) (side o.reverse h.lines) input before after
  first : NoneBefore (matchEof h) (side o.reverse h.lines) input before.length

theorem Site.unique {h : Hunk} {input before after before' after' : List Str}
    (hsite : Site o h input before after) (hsite' : Site o h input before' after') :
    before = before' ∧ after = after' := by
  have hle := hsite.first _ _ hsite'.place
  have hge := hsite'.first _ _ hsite.place
  have hsame := hsite.place.all.symm.trans hsite'.place.all
  rw [List.append_assoc, List.append_assoc] at hsame
  obtain ⟨hbefore, hrest⟩ := List.append_inj hsame (Nat.le_antisymm hle hge)
  exact ⟨hbefore, List.append_cancel_left hrest⟩

/-- A failure leaves the original file as it is and shows in the exit status.  Otherwise the hunk has
been applied at its first place. -/
def Right (o : Options) (h : Hunk) (g : Globals) (original : List Str) :
    Bool × Globals → Prop
  | (false, g') => finishOldfile original g' = original ∧ g'.exitval = 1
  | (true, g') => ∃ before, Site o h g.filein before g'.filein ∧
      g'.fileout = g.fileout ++ before ++ side (!o.reverse) h.lines

end Rustybox.Patch

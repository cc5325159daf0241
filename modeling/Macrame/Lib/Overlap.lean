import Mathlib.Order.Lattice
import Mathlib.Data.Int.Order.Basic

namespace Overlaps

-- How long `[a,b]` and `[c,d]` have in common.
def overlap (a b c d : Int) : Int := max 0 (min b d-max a c)

theorem overlap_before (before : d ≤ a) : overlap a b c d = 0 := by
  unfold overlap
  omega

theorem overlap_after (after : b ≤ c) : overlap a b c d = 0 := by
  unfold overlap
  omega

theorem overlap_empty (empty : d ≤ c) : overlap a b c d = 0 := by
  unfold overlap
  omega

-- Two pieces that meet make up the whole.
theorem overlap_join (first : c ≤ d) (second : d ≤ e) : overlap a b c d+overlap a b d e = overlap a b c e := by
  unfold overlap
  omega

theorem overlap_shift (a b o c d : Int) : overlap (a-o) (b-o) c d = overlap a b (o+c) (o+d) := by
  unfold overlap
  omega

-- What lies outside `[low,high]` does not count for a piece inside it.
theorem overlap_clip (low : l ≤ c) (high : d ≤ h) : overlap (max a l) (min b h) c d = overlap a b c d := by
  unfold overlap
  omega

end Overlaps

import Mathlib.Data.List.DropRight
import Mathlib.Tactic.Common

/-! Path names as lists of characters. A path names a place, which is a
directory and a name in it; spellings of a directory that differ in trailing
slashes are one directory. -/
namespace Paths

abbrev Path := List Char

def directoryOf (p : Path) : Path := p.rdropWhile (· = '/')

structure Location where
  directory : Path
  name : Path
  plain : '/' ∉ name
  deriving DecidableEq

/-- What comes after the last slash is the name; without one the path is
relative to `.`. -/
def locate (p : Path) : Location where
  directory :=
    let above := p.rdropWhile (· ≠ '/')
    if above = [] then ['.'] else directoryOf above
  name := p.rtakeWhile (· ≠ '/')
  plain := by
    intro slash
    simpa using List.mem_rtakeWhile_imp slash

theorem directoryOf_slash (d : Path) : directoryOf (d ++ ['/']) = directoryOf d :=
  List.rdropWhile_concat_pos _ _ _ (by simp)

theorem reverse_plain {n : Path} (plain : '/' ∉ n) :
    ∀ c ∈ n.reverse, decide (c ≠ '/') = true := by
  intro c hc
  apply decide_eq_true
  rintro rfl
  exact plain (List.mem_reverse.mp hc)

theorem rtakeWhile_append_plain {n : Path} (plain : '/' ∉ n) (p : Path) :
    (p ++ n).rtakeWhile (· ≠ '/') = p.rtakeWhile (· ≠ '/') ++ n := by
  simp only [List.rtakeWhile, List.reverse_append,
    List.takeWhile_append_of_pos (reverse_plain plain), List.reverse_reverse]

theorem rdropWhile_append_plain {n : Path} (plain : '/' ∉ n) (p : Path) :
    (p ++ n).rdropWhile (· ≠ '/') = p.rdropWhile (· ≠ '/') := by
  simp only [List.rdropWhile, List.reverse_append,
    List.dropWhile_append_of_pos (reverse_plain plain)]

/-- A name joined to its directory by a slash. -/
theorem locate_child {n : Path} (plain : '/' ∉ n) (d : Path) :
    locate (d ++ ['/'] ++ n) = ⟨directoryOf d, n, plain⟩ := by
  have name : (d ++ ['/']).rtakeWhile (· ≠ '/') = [] := List.rtakeWhile_concat_neg _ _ _ (by simp)
  have above : (d ++ ['/']).rdropWhile (· ≠ '/') = d ++ ['/'] :=
    List.rdropWhile_concat_neg _ _ _ (by simp)
  simp only [locate, rtakeWhile_append_plain plain, rdropWhile_append_plain plain, name, above,
    directoryOf_slash, List.nil_append]
  simp

/-- Plain names that are appended to one path name different places. -/
theorem locate_append_injective {n m : Path} (hn : '/' ∉ n) (hm : '/' ∉ m) (p : Path)
    (same : locate (p ++ n) = locate (p ++ m)) : n = m := by
  have names := congrArg Location.name same
  simp only [locate, rtakeWhile_append_plain hn, rtakeWhile_append_plain hm] at names
  exact List.append_cancel_left names

end Paths

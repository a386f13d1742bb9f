/-
WordMachine/Proofs/Dumps.lean

Dumps that are read back.

A dump has a first line, which counts, and behind it a line for each item: a label, a mark
that is no digit, and the digits of the item's bytes (`DumpLine`).  There is no line break
in any of them, so the dump can be taken apart into its lines again, and the digits at the
end of a line are those of its item (`readDump_eq`).

An element of a stack has a line for itself, however long it is.  Memory has a line for each
word, and the words one behind the other are its bytes (`flatMap_window`), since its size is
a multiple of that of a word.

The first line is not read, and so a dump is read back also where something is written in
front of it.

Main result: `dumps_are_faithful`.
-/
import WordMachine.Proofs.HexText
import Mathlib.Data.List.DropRight

namespace WordMachine

namespace Text

open Hex

/-! ### Lines -/

/-- A line of a dump. -/
structure DumpLine where
  label : List Char
  mark : Char
  /-- What the digits behind the mark stand for. -/
  bytes : Bytes
  unbroken : '\n' ∉ label ++ [mark]
  marked : ¬ IsDigit mark

def DumpLine.text (l : DumpLine) : List Char := l.label ++ l.mark :: digits l.bytes

/-- The bytes that the digits at the end of a line stand for. -/
def readLine (line : List Char) : Option Bytes :=
  decode (line.rtakeWhile fun c => IsDigit c)

/-- The bytes on the lines of a dump but for its first line. -/
def readDump (s : String) : List Bytes :=
  (s.toList.splitOn '\n').tail.filterMap readLine

theorem isDigit_of_mem_digits {b : Bytes} {c : Char} (h : c ∈ digits b) : IsDigit c :=
  isDigit_of_mem (map_toLower_digits b) h

theorem DumpLine.newline_not_mem_text (l : DumpLine) : '\n' ∉ l.text := by
  have hdigits : '\n' ∉ digits l.bytes := fun h => absurd (isDigit_of_mem_digits h) (by decide)
  have hfront := l.unbroken
  simp only [text, List.mem_append, List.mem_cons] at hfront ⊢
  tauto

theorem DumpLine.readLine_text (l : DumpLine) : readLine l.text = some l.bytes := by
  have hdigits : l.text.rtakeWhile (fun c => IsDigit c) = digits l.bytes := by
    rw [List.rtakeWhile, text, List.reverse_append, List.reverse_cons, List.append_assoc,
      List.takeWhile_append_of_pos]
    · simp [l.marked]
    · intro c hc
      simpa using isDigit_of_mem_digits (List.mem_reverse.mp hc)
  rw [readLine, hdigits, decode_digits]

theorem intercalate_newline (header : List Char) (lines : List (List Char)) :
    ['\n'].intercalate (header :: lines) = header ++ lines.flatMap fun line => '\n' :: line := by
  induction lines generalizing header with
  | nil => simp
  | cons line lines ih => simp [List.intercalate_cons_cons, ih]

/-- A dump falls apart into its lines, and each of them is read. -/
theorem readDump_eq {s : String} {header : List Char} {ls : List DumpLine}
    (hheader : '\n' ∉ header)
    (h : s.toList = header ++ (ls.map DumpLine.text).flatMap fun line => '\n' :: line) :
    readDump s = ls.map DumpLine.bytes := by
  have hlines : s.toList.splitOn '\n' = header :: ls.map DumpLine.text := by
    rw [h, ← intercalate_newline]
    refine List.splitOn_intercalate '\n' ?_ (List.cons_ne_nil _ _)
    simp only [List.forall_mem_cons, List.forall_mem_map]
    exact ⟨hheader, fun l _ => l.newline_not_mem_text⟩
  rw [readDump, hlines, List.tail_cons, List.filterMap_map]
  have hread : readLine ∘ DumpLine.text = some ∘ DumpLine.bytes := by
    funext l
    exact l.readLine_text
  rw [hread, List.filterMap_eq_map]

/-- Items are written one behind the other. -/
theorem toList_foldl {α : Type} {f : String → α → String} {g : α → List Char}
    (h : ∀ out x, (f out x).toList = out.toList ++ g x) (xs : List α) (s : String) :
    (xs.foldl f s).toList = s.toList ++ xs.flatMap g := by
  induction xs generalizing s with
  | nil => simp
  | cons x xs ih => simp [ih, h]

theorem mem_toDigits {base n : Nat} (hbase : 1 < base) {c : Char} (h : c ∈ Nat.toDigits base n) :
    ∃ d < base, c = Nat.digitChar d := by
  induction n using Nat.strongRecOn with
  | ind n ih =>
    rcases Nat.lt_or_ge n base with hlt | hge
    · rw [Nat.toDigits_of_lt_base hlt, List.mem_singleton] at h
      exact ⟨n, hlt, h⟩
    · rw [Nat.toDigits_of_base_le hbase hge, List.mem_append, List.mem_singleton] at h
      rcases h with h | h
      · exact ih (n / base) (Nat.div_lt_self (by omega) hbase) h
      · exact ⟨n % base, Nat.mod_lt n (by omega), h⟩

theorem newline_not_mem_toDigits {base : Nat} (hbase : 1 < base) (hle : base ≤ 16) (n : Nat) :
    '\n' ∉ Nat.toDigits base n := by
  have hall : ∀ d < 16, '\n' ≠ Nat.digitChar d := by decide
  intro h
  obtain ⟨d, hd, hc⟩ := mem_toDigits hbase h
  exact hall d (Nat.lt_of_lt_of_le hd hle) hc

end Text

open Text Text.Hex

/-! ### Stacks -/

namespace Stack

/-- The line of an element. -/
def line (e : Element) : DumpLine where
  label := "  - 0".toList
  mark := 'x'
  bytes := e.bytes
  unbroken := by decide
  marked := by decide

/-- The stack that a text is the dump of. -/
def ofText (s : String) : Stack := ⟨(readDump s).map Element.mk⟩

theorem toList_text (s : Stack) :
    s.text.toList = (toString s.depth ++ " elems:").toList
      ++ ((s.items.map line).map DumpLine.text).flatMap fun line => '\n' :: line := by
  rw [List.flatMap_map, List.flatMap_map]
  apply toList_foldl
  intro out e
  simp [line, DumpLine.text, Element.text, encode]

/-- A stack is read back from its dump, whatever is written in front of it. -/
theorem ofText_text {front : String} (hfront : '\n' ∉ front.toList) (s : Stack) :
    ofText (front ++ s.text) = s := by
  have hheader : '\n' ∉ front.toList ++ (toString s.depth ++ " elems:").toList := by
    have hdepth : '\n' ∉ Nat.toDigits 10 s.depth :=
      newline_not_mem_toDigits (by decide) (by decide) _
    simp [hfront, hdepth]
  have hread : readDump (front ++ s.text) = (s.items.map line).map DumpLine.bytes := by
    apply readDump_eq hheader
    rw [String.toList_append, toList_text, List.append_assoc]
  rw [ofText, hread]
  simp [line, Function.comp_def]

end Stack

/-! ### Memory -/

namespace Bytes

/-- A window inside a string is a piece of it. -/
theorem toList_window {b : Bytes} (hb : b.size < Word.offsetBound) {offset size : Nat}
    (h : offset + size ≤ b.size) :
    (b.window offset size).toList = (b.toList.drop offset).take size := by
  have hpiece : b.window offset size = b.extract offset (offset + size) := by
    apply ext_byteAt
    · rw [size_window, Array.size_extract]
      omega
    · intro i hi
      rw [size_window] at hi
      rw [byteAt_window hb offset hi, byteAt_extract b h, if_pos (by omega)]
  rw [hpiece, Array.toList_extract, List.extract_eq_take_drop, Nat.add_sub_cancel_left]

/-- Windows one behind the other are the beginning of a string. -/
theorem flatMap_window {b : Bytes} (hb : b.size < Word.offsetBound) {size count : Nat}
    (h : size * count ≤ b.size) :
    (List.range count).flatMap (fun i => (b.window (size * i) size).toList)
      = b.toList.take (size * count) := by
  induction count with
  | zero => simp
  | succ count ih =>
    rw [Nat.mul_succ] at h ⊢
    rw [List.range_succ, List.flatMap_append, List.flatMap_singleton, ih (by omega),
      toList_window hb h, List.take_add]

end Bytes

namespace Memory

/-- The line of a word. -/
def line (m : Memory) (word : Nat) : DumpLine where
  label := ("  0x" ++ number 4 (32 * word) ++ ":").toList
  mark := ' '
  bytes := m.bytes.window (32 * word) 32
  unbroken := by
    have haddress : '\n' ∉ Nat.toDigits 16 (32 * word) :=
      newline_not_mem_toDigits (by decide) (by decide) _
    simp [number, haddress]
  marked := by decide

/-- The bytes that a text is the dump of. -/
def bytesOfText (s : String) : Bytes := ((readDump s).flatMap Array.toList).toArray

theorem toList_text (m : Memory) :
    m.text.toList = (toString m.size ++ " bytes:").toList
      ++ (((List.range m.wordCount).map m.line).map DumpLine.text).flatMap
        fun line => '\n' :: line := by
  rw [List.flatMap_map, List.flatMap_map]
  apply toList_foldl
  intro out word
  simp [row, line, DumpLine.text]

/-- Memory is read back from its dump, whatever is written in front of it. -/
theorem bytesOfText_text {front : String} (hfront : '\n' ∉ front.toList) (m : Memory) :
    bytesOfText (front ++ m.text) = m.bytes := by
  have hheader : '\n' ∉ front.toList ++ (toString m.size ++ " bytes:").toList := by
    have hsize : '\n' ∉ Nat.toDigits 10 m.size :=
      newline_not_mem_toDigits (by decide) (by decide) _
    simp [hfront, hsize]
  have hread : readDump (front ++ m.text)
      = ((List.range m.wordCount).map m.line).map DumpLine.bytes := by
    apply readDump_eq hheader
    rw [String.toList_append, toList_text, List.append_assoc]
  have hwhole : 32 * m.wordCount = m.bytes.size := by
    have hmod := m.size_mod
    unfold wordCount size
    omega
  have hbound : m.bytes.size < Word.offsetBound :=
    Nat.lt_of_le_of_lt m.size_le (by decide)
  rw [bytesOfText, hread, List.flatMap_map, List.flatMap_map]
  show ((List.range m.wordCount).flatMap fun word =>
    (m.bytes.window (32 * word) 32).toList).toArray = _
  rw [Bytes.flatMap_window hbound (Nat.le_of_eq hwhole), hwhole, ← Array.length_toList,
    List.take_length]

end Memory

/-- **Dumps are faithful.**  Stacks with the same dump are the same, element by element, and
memories with the same dump have the same size and the same bytes.  For they are read back
from their dumps, also where the dump stands behind other text on its first line. -/
theorem dumps_are_faithful :
    (∀ s t : Stack, s.text = t.text → s = t) ∧
    (∀ m n : Memory, m.text = n.text → m.size = n.size ∧ m.bytes = n.bytes) ∧
    ∀ front : String, '\n' ∉ front.toList →
      (∀ s : Stack, Stack.ofText (front ++ s.text) = s) ∧
      ∀ m : Memory, Memory.bytesOfText (front ++ m.text) = m.bytes := by
  have hempty : '\n' ∉ "".toList := by decide
  refine ⟨fun s t h => ?_, fun m n h => ?_, fun front hfront => ⟨?_, ?_⟩⟩
  · rw [← Stack.ofText_text hempty s, h, Stack.ofText_text hempty]
  · have hbytes : m.bytes = n.bytes := by
      rw [← Memory.bytesOfText_text hempty m, h, Memory.bytesOfText_text hempty]
    exact ⟨congrArg Array.size hbytes, hbytes⟩
  · exact Stack.ofText_text hfront
  · exact Memory.bytesOfText_text hfront

/-- The line that is printed for a stack with an empty element, a stack that is as it was, and
memories that have grown by a read and by a write of zero. -/
theorem dumps_are_faithful_printed :
    '\n' ∉ "Stack: ".toList ∧
      Stack.ofText "Stack: 2 elems:\n  - 0x\n  - 0x00ff" = ⟨[⟨#[]⟩, ⟨#[0x00, 0xff]⟩]⟩ ∧
      (Stack.empty.push .zero).pop.2.text = Stack.empty.text ∧
      (Stack.empty.push .zero).pop.2 = Stack.empty ∧
      (Memory.empty.fetch 3 4).2.text = (Memory.empty.storeByte 31 0).2.text ∧
      (Memory.empty.fetch 3 4).2.size = (Memory.empty.storeByte 31 0).2.size ∧
      (Memory.empty.fetch 3 4).2.bytes = (Memory.empty.storeByte 31 0).2.bytes := by
  obtain ⟨hstacks, hmemories, hread⟩ := dumps_are_faithful
  have hfront : '\n' ∉ "Stack: ".toList := by decide
  have hprinted : "Stack: " ++ (Stack.mk [⟨#[]⟩, ⟨#[0x00, 0xff]⟩]).text
      = "Stack: 2 elems:\n  - 0x\n  - 0x00ff" := by decide +kernel
  have hstack : (Stack.empty.push .zero).pop.2.text = Stack.empty.text := by decide +kernel
  have hmemory : (Memory.empty.fetch 3 4).2.text = (Memory.empty.storeByte 31 0).2.text := by
    decide +kernel
  refine ⟨hfront, ?_, hstack, hstacks _ _ hstack, hmemory, hmemories _ _ hmemory⟩
  rw [← hprinted]
  exact (hread "Stack: " hfront).1 _

end WordMachine

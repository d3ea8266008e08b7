import ByteMachine.Bus.Recorder
import ByteMachine.Proofs.Tiling

/-!
# The text of a listing can be assembled

The text of a line shows neither its address nor how many bytes it covers.  Both can be told
from it all the same.  A mnemonic stands for one opcode, a line without an instruction has a
word of its own in front, and no word has a blank in it.  So the words of a text, and from
them the bytes of its line, can be read back one by one, and the next line stands behind
these bytes.

**Algorithm.**  The assembler cuts a text at its blanks.  The first word is the mnemonic of
an instruction or the directive for a single byte, and each other word is a byte.

**Results.**
* `byte?_byte`, `first?_mnemonic`: every word of a line can be read back.
* `line?_text`, `assemble?_listing`: the assembler turns the texts of a listing into the
  bytes that its lines cover.
* `listing_eq_of_bytes`: two listings from the same start with the same bytes, line by line,
  are the same.
* `listing_text_is_lossless`: the texts of a listing are as good as the listing.
-/

namespace ByteMachine

namespace Hex

/-- The number that a digit stands for. -/
def value? (d : Char) : Option Nat :=
  (List.range 16).find? fun n => digit n == d

/-- The byte that a word stands for. -/
def byte? (word : List Char) : Option UInt8 :=
  match word with
  | ['0', 'x', high, low] =>
      (value? high).bind fun h => (value? low).map fun l => UInt8.ofNat (16 * h + l)
  | _ => none

theorem value?_digit : ∀ n, n < 16 → value? (digit n) = some n := by
  decide

theorem digit_ne_blank : ∀ n, n < 16 → digit n ≠ ' ' := by
  decide

theorem toList_byte (b : UInt8) :
    (byte b).toList = ['0', 'x', digit (b.toNat / 16), digit (b.toNat % 16)] :=
  String.toList_ofList

theorem byte?_byte (b : UInt8) : byte? (byte b).toList = some b := by
  have hb := b.toNat_lt
  have hhigh := value?_digit (b.toNat / 16) (by omega)
  have hlow := value?_digit (b.toNat % 16) (by omega)
  rw [toList_byte]
  simp only [byte?, hhigh, hlow, Option.bind_some, Option.map_some, Nat.div_add_mod,
    UInt8.ofNat_toNat]

theorem blank_notMem_byte (b : UInt8) : ' ' ∉ (byte b).toList := by
  have hb := b.toNat_lt
  have hhigh := digit_ne_blank (b.toNat / 16) (by omega)
  have hlow := digit_ne_blank (b.toNat % 16) (by omega)
  rw [toList_byte]
  simp [hhigh.symm, hlow.symm]

end Hex

namespace Opcode

/-- The opcode of a mnemonic. -/
def ofMnemonic? (word : List Char) : Option Opcode :=
  all.find? fun op => op.mnemonic.toList == word

theorem blank_notMem_mnemonic (op : Opcode) : ' ' ∉ op.mnemonic.toList := by
  cases op <;> decide

end Opcode

/-! ### The words of a line -/

namespace Line

/-- The words of a line: a mnemonic and the operands, or the directive for a single byte. -/
def words (l : Line) : List (List Char) :=
  match l.instruction with
  | some op => op.mnemonic.toList :: l.operands.map fun b => (Hex.byte b).toList
  | none => [".byte".toList, (Hex.byte l.opcode).toList]

theorem intercalate_blank (w : List Char) (ws : List (List Char)) :
    [' '].intercalate (w :: ws) = w ++ ws.flatMap fun x => ' ' :: x := by
  induction ws generalizing w with
  | nil => simp
  | cons x ws ih => simp [ih]

theorem toList_text (l : Line) : l.text.toList = [' '].intercalate l.words := by
  unfold text words
  cases l.instruction with
  | none => simp
  | some op => simp [intercalate_blank, String.toList_join, List.flatMap_map]

theorem blank_notMem_of_mem_words {l : Line} {w : List Char} (h : w ∈ l.words) : ' ' ∉ w := by
  unfold words at h
  cases hi : l.instruction with
  | none =>
      rw [hi] at h
      rcases List.mem_pair.1 h with rfl | rfl
      · decide
      · exact Hex.blank_notMem_byte l.opcode
  | some op =>
      rw [hi] at h
      rcases List.mem_cons.1 h with rfl | hrest
      · exact op.blank_notMem_mnemonic
      · obtain ⟨b, _, rfl⟩ := List.mem_map.1 hrest
        exact Hex.blank_notMem_byte b

/-- The words of a line can be read off its text. -/
theorem splitOn_text (l : Line) : l.text.toList.splitOn ' ' = l.words := by
  rw [toList_text]
  apply List.splitOn_intercalate
  · intro w hw
    exact blank_notMem_of_mem_words hw
  · unfold words
    cases l.instruction <;> exact List.cons_ne_nil _ _

/-- A line as listings have it: it names the instruction of its first byte, and it has no
operands if there is none. -/
structure Sound (l : Line) : Prop where
  instruction_eq : l.instruction = Opcode.ofByte? l.opcode
  operands_eq_nil : l.instruction = none → l.operands = []

theorem sound_decodeAt {μ : Type} [Bus μ] (m : μ) (address : UInt8) :
    (decodeAt m address).Sound := by
  refine ⟨by rw [instruction_decodeAt, opcode_decodeAt], ?_⟩
  intro hnone
  rw [instruction_decodeAt] at hnone
  rw [decodeAt_of_ofByte?_eq_none hnone]

theorem sound_of_mem_listing {μ : Type} [Bus μ] {m : μ} {start : UInt8} {count : Nat} {l : Line}
    (h : l ∈ listing m start count) : l.Sound := by
  rw [eq_decodeAt_of_mem_listing m h]
  exact sound_decodeAt m l.address

/-- The first byte of a line decides which instruction it names. -/
theorem Sound.eq_of_bytes {l l' : Line} (h : l.Sound) (h' : l'.Sound)
    (haddress : l.address = l'.address) (hbytes : l.bytes = l'.bytes) : l = l' := by
  obtain ⟨address, opcode, instruction, operands⟩ := l
  obtain ⟨address', opcode', instruction', operands'⟩ := l'
  obtain ⟨hopcode, hoperands⟩ := List.cons.inj hbytes
  have hi : instruction = Opcode.ofByte? opcode := h.instruction_eq
  have hi' : instruction' = Opcode.ofByte? opcode' := h'.instruction_eq
  change opcode = opcode' at hopcode
  rw [mk.injEq, hi, hi', hopcode]
  exact ⟨haddress, rfl, rfl, hoperands⟩

end Line

/-! ### The assembler -/

namespace Assembler

/-- The bytes that the first word of a text stands for.  The directive for a single byte
leaves the byte to the next word. -/
def first? (word : List Char) : Option (List UInt8) :=
  if word = ".byte".toList then some []
  else (Opcode.ofMnemonic? word).map fun op => [op.byte]

/-- The bytes that a text stands for. -/
def line? (text : String) : Option (List UInt8) :=
  match text.toList.splitOn ' ' with
  | [] => none
  | word :: rest =>
      (first? word).bind fun front => (rest.mapM Hex.byte?).map fun back => front ++ back

/-- The bytes that several texts stand for, one text after the other. -/
def assemble? (texts : List String) : Option (List UInt8) :=
  (texts.mapM line?).map List.flatten

theorem first?_directive : first? ".byte".toList = some [] := rfl

theorem first?_mnemonic (op : Opcode) : first? op.mnemonic.toList = some [op.byte] := by
  cases op <;> rfl

/-- What can be read back one by one can be read back in a row. -/
theorem mapM_map_eq_some {α β γ : Type} {f : α → β} {g : β → Option γ} {h : α → γ} {xs : List α}
    (hread : ∀ x ∈ xs, g (f x) = some (h x)) : (xs.map f).mapM g = some (xs.map h) := by
  induction xs with
  | nil => rfl
  | cons x xs ih =>
      have hrest := ih fun y hy => hread y (List.mem_cons_of_mem x hy)
      rw [List.map_cons, List.mapM_cons, hread x List.mem_cons_self, hrest]
      rfl

theorem mapM_byte?_map (bs : List UInt8) :
    (bs.map fun b => (Hex.byte b).toList).mapM Hex.byte? = some bs := by
  have hread : ∀ b ∈ bs, Hex.byte? (Hex.byte b).toList = some (id b) :=
    fun b _ => Hex.byte?_byte b
  rw [mapM_map_eq_some hread, List.map_id]

/-- The assembler turns the text of a line into the bytes of the line. -/
theorem line?_text {l : Line} (h : l.Sound) : line? l.text = some l.bytes := by
  unfold line?
  rw [Line.splitOn_text, Line.words]
  cases hi : l.instruction with
  | none =>
      have hbyte := mapM_byte?_map [l.opcode]
      rw [List.map_singleton] at hbyte
      simp only [first?_directive, hbyte, Option.bind_some, Option.map_some, List.nil_append,
        Line.bytes, h.operands_eq_nil hi]
  | some op =>
      have hopcode : op.byte = l.opcode := by
        rw [← Opcode.ofByte?_eq_some_iff, ← h.instruction_eq, hi]
      simp only [first?_mnemonic, mapM_byte?_map, Option.bind_some, Option.map_some,
        List.singleton_append, Line.bytes, hopcode]

section

variable {μ ν : Type} [Bus μ] [Bus ν]

theorem mapM_line?_listing (m : μ) (start : UInt8) (count : Nat) :
    ((Line.listing m start count).map Line.text).mapM line? =
      some ((Line.listing m start count).map Line.bytes) :=
  mapM_map_eq_some fun _ hl => line?_text (Line.sound_of_mem_listing hl)

/-- The assembler turns the texts of a listing into the bytes at the addresses that its
lines cover. -/
theorem assemble?_listing (m : μ) (start : UInt8) (count : Nat) :
    assemble? ((Line.listing m start count).map Line.text) =
      some (((Line.listing m start count).flatMap Line.addresses).map (Bus.read m)) := by
  rw [assemble?, mapM_line?_listing, Option.map_some, ← List.flatMap_def, Line.bytes_listing,
    Line.addresses_listing]

/-- Where a line ends is decided by its bytes, so that the lines behind it start at the same
address. -/
theorem listing_eq_of_bytes {m : μ} {m' : ν} {start : UInt8} {count : Nat}
    (h : (Line.listing m start count).map Line.bytes =
      (Line.listing m' start count).map Line.bytes) :
    Line.listing m start count = Line.listing m' start count := by
  induction count generalizing start with
  | zero => rfl
  | succ n ih =>
      rw [Line.listing_succ, Line.listing_succ, List.map_cons, List.map_cons] at h
      obtain ⟨hfirst, hrest⟩ := List.cons.inj h
      have hline : Line.decodeAt m start = Line.decodeAt m' start := by
        apply (Line.sound_decodeAt m start).eq_of_bytes (Line.sound_decodeAt m' start) _ hfirst
        rw [Line.address_decodeAt, Line.address_decodeAt]
      rw [← hline] at hrest
      rw [Line.listing_succ, Line.listing_succ, ← hline, ih hrest]

theorem listing_eq_of_texts {m : μ} {m' : ν} {start : UInt8} {count : Nat}
    (h : (Line.listing m start count).map Line.text =
      (Line.listing m' start count).map Line.text) :
    Line.listing m start count = Line.listing m' start count := by
  apply listing_eq_of_bytes
  apply Option.some.inj
  rw [← mapM_line?_listing, ← mapM_line?_listing, h]

end

end Assembler

/-! ### Going round the memory -/

namespace Line

/-- As many addresses in a row as there are in all. -/
theorem mem_stretch (start a : UInt8) {n : Nat} (h : 256 ≤ n) : a ∈ stretch start n := by
  have hlt := (a - start).toNat_lt
  refine List.mem_map.2 ⟨(a - start).toNat, List.mem_range.2 (by omega), ?_⟩
  rw [UInt8.ofNat_toNat, UInt8.add_comm, UInt8.sub_add_cancel]

/-- A listing covers at least as many bytes as it has lines. -/
theorem le_totalSize_listing {μ : Type} [Bus μ] (m : μ) (start : UInt8) (count : Nat) :
    count ≤ totalSize (listing m start count) := by
  induction count generalizing start with
  | zero => exact Nat.zero_le _
  | succ n ih =>
      have hfirst := (size_decodeAt_le m start).1
      have hrest := ih (decodeAt m start).next
      rw [listing_succ, totalSize_cons]
      omega

/-- A listing with as many lines as there are addresses covers all of them. -/
theorem mem_addresses_listing {μ : Type} [Bus μ] (m : μ) (start : UInt8) {count : Nat}
    (h : 256 ≤ count) (a : UInt8) : a ∈ (listing m start count).flatMap addresses := by
  have hle := le_totalSize_listing m start count
  rw [addresses_listing]
  exact mem_stretch start a (by omega)

end Line

namespace Assembly

section

variable {μ ν : Type} [Bus μ] [Bus ν]

/-- **The text of a listing is lossless.**  Two listings from the same start have the same
texts exactly if their lines have the same addresses, opcodes and operands.  One assembler
turns the texts of any listing into the bytes at the addresses that its lines cover.  So two
memories whose listings go all the way round and have the same texts hold the same bytes. -/
theorem listing_text_is_lossless (m : μ) (m' : ν) (start : UInt8) (count : Nat) :
    let lines := Line.listing m start count
    let lines' := Line.listing m' start count
    let shown (l : Line) := (l.address, l.opcode, l.operands)
    (lines.map Line.text = lines'.map Line.text ↔ lines.map shown = lines'.map shown) ∧
    Assembler.assemble? (lines.map Line.text) =
      some ((lines.flatMap Line.addresses).map (Bus.read m)) ∧
    lines.flatMap (fun l => l.opcode :: l.operands) =
      (lines.flatMap Line.addresses).map (Bus.read m) ∧
    (256 ≤ count → lines.map Line.text = lines'.map Line.text →
      ∀ a, Bus.read m a = Bus.read m' a) := by
  intro lines lines' shown
  have hbytes : lines.flatMap (fun l => l.opcode :: l.operands) =
      (lines.flatMap Line.addresses).map (Bus.read m) := by
    rw [Line.addresses_listing, ← Line.bytes_listing]
    rfl
  refine ⟨⟨?_, ?_⟩, Assembler.assemble?_listing m start count, hbytes, ?_⟩
  · intro htexts
    have hlines : lines = lines' := Assembler.listing_eq_of_texts htexts
    rw [hlines]
  · intro hshown
    have hlines : lines = lines' := by
      apply Assembler.listing_eq_of_bytes
      have hcons := congrArg (List.map fun x => x.2.1 :: x.2.2) hshown
      rwa [List.map_map, List.map_map] at hcons
    rw [hlines]
  · intro hcount htexts a
    have hlines : lines = lines' := Assembler.listing_eq_of_texts htexts
    have ha := Line.mem_addresses_listing m start hcount a
    -- Both listings assemble to the bytes at the same addresses, each in its own memory.
    have hread := Assembler.assemble?_listing m start count
    have hread' := Assembler.assemble?_listing m' start count
    change Assembler.assemble? (lines'.map Line.text) =
      some ((lines'.flatMap Line.addresses).map (Bus.read m')) at hread'
    rw [← hlines, hread] at hread'
    exact List.map_inj_left.1 (Option.some.inj hread') a ha

end

/-- An addition at the end of the memory, with its operands at the other end, and behind them
a byte that is no opcode. -/
def wrapping : Bank :=
  Bus.replay Bank.zero [(0xFF, 0x0C), (0x00, 0x01), (0x01, 0x02), (0x02, 0xFF)]

theorem listing_text_is_lossless_wrapping :
    let texts (count : Nat) := (Line.listing wrapping 0xFF count).map Line.text
    texts 3 = ["ADD 0x01 0x02", ".byte 0xFF", "HALT"] ∧
      Assembler.assemble? (texts 3) = some [0x0C, 0x01, 0x02, 0xFF, 0x00] ∧
      texts 256 = (Line.listing (Recorder.fresh wrapping) 0xFF 256).map Line.text ∧
      ∀ a, Bus.read wrapping a = Bus.read (Recorder.fresh wrapping) a := by
  intro texts
  have htexts : texts 256 = (Line.listing (Recorder.fresh wrapping) 0xFF 256).map Line.text :=
    congrArg (List.map Line.text) (Line.listing_congr 0xFF 256 fun _ _ => rfl)
  have hcovered : ((Line.listing wrapping 0xFF 3).flatMap Line.addresses).map
      (Bus.read wrapping) = [0x0C, 0x01, 0x02, 0xFF, 0x00] := by
    decide +kernel
  obtain ⟨_, hassembled, _⟩ :=
    listing_text_is_lossless wrapping (Recorder.fresh wrapping) 0xFF 3
  obtain ⟨_, _, _, hall⟩ := listing_text_is_lossless wrapping (Recorder.fresh wrapping) 0xFF 256
  refine ⟨by decide +kernel, ?_, htexts, hall (Nat.le_refl 256) htexts⟩
  rw [hassembled, hcovered]

end Assembly
end ByteMachine

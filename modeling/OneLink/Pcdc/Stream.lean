/-
# Pcdc.Stream — a stream is cut as the whole buffer is

`chunk_ranges` ends exactly when no cut is empty, with the pieces of the serial rule
(`chunkRanges_sound`, `chunkRanges_complete`).  The stream scanner keeps the invariant
`Inv`: what it has put out are the pieces of the content up to `base`, and the window and
the reader hold the rest.  One round either ends with everything put out, or moves `base`,
or grows a window that was too small (`round_spec`).
-/
import OneLink.Pcdc.Cut

namespace OneLink.Pcdc

open Library Library.PrefixCut

set_option autoImplicit false

variable (F : FastCdc) {p : CdcParams}
variable (ordered : p.minSize < p.avgSize ∧ p.avgSize < p.maxSize)

@[simp] theorem cutter_cut : (cutter F ordered).cut = serialCut F p := rfl

@[simp] theorem cutter_reach : (cutter F ordered).reach = p.maxSize := rfl

/-! ## `chunk_ranges` -/

theorem walk_sound {buffer : Bytes} {fuel start : Nat} {out all : List (Nat × Nat)}
    (walked : walk buffer.length (fun at_ => serialCut F p (buffer.drop at_)) fuel start out =
      some all) (within : start ≤ buffer.length) :
    ∃ sizes, (cutter F ordered).Cuts (buffer.drop start) sizes [] ∧ all = out ++ ranges start sizes := by
  induction fuel generalizing start out with
  | zero => cases walked
  | succ fuel ih =>
    rw [walk] at walked
    split at walked
    · next more =>
      have bound := serialCut_le F (p := p) (buffer.drop start)
      rw [List.length_drop] at bound
      obtain ⟨sizes, cuts, rfl⟩ := ih walked (by omega)
      rw [← List.drop_drop] at cuts
      have positive : 0 < serialCut F p (buffer.drop start) := by
        by_contra zero
        rw [Nat.eq_zero_of_not_pos zero, List.drop_zero] at cuts
        have some : 0 < (buffer.drop start).length := by
          rw [List.length_drop]
          omega
        generalize buffer.drop start = left at cuts zero some
        cases cuts with
        | done => cases some
        | piece positive _ => exact zero positive
      exact ⟨_, .piece positive cuts, by rw [List.append_assoc]; rfl⟩
    · next stopped =>
      cases walked
      have none : buffer.drop start = [] := List.drop_eq_nil_of_le (by omega)
      exact ⟨[], none ▸ .done _, by rw [ranges, List.append_nil]⟩

theorem walk_complete {buffer : Bytes} {start fuel : Nat} {sizes : List Nat}
    (cuts : (cutter F ordered).Cuts (buffer.drop start) sizes []) (within : start ≤ buffer.length)
    (enough : sizes.length < fuel) (out : List (Nat × Nat)) :
    walk buffer.length (fun at_ => serialCut F p (buffer.drop at_)) fuel start out =
      some (out ++ ranges start sizes) := by
  induction sizes generalizing start fuel out with
  | nil =>
    have none := cuts.rest.2
    rw [List.sum_nil, List.drop_zero] at none
    obtain ⟨fuel, rfl⟩ := Nat.exists_eq_succ_of_ne_zero (Nat.ne_of_gt enough)
    have stopped : ¬ start < buffer.length := by
      have := List.drop_eq_nil_iff.mp none.symm
      omega
    rw [walk, if_neg stopped, ranges, List.append_nil]
  | cons size sizes ih =>
    obtain ⟨fuel, rfl⟩ := Nat.exists_eq_succ_of_ne_zero (show fuel ≠ 0 by omega)
    generalize left_def : buffer.drop start = left at cuts
    cases cuts with
    | piece positive more =>
      subst left_def
      have bound := serialCut_le F (p := p) (buffer.drop start)
      rw [cutter_cut] at positive more enough
      rw [List.drop_drop] at more
      rw [List.length_drop] at bound
      rw [walk, if_pos (by omega), ih more (by omega) (by simpa using enough)]
      rw [List.append_assoc]
      rfl

include ordered in
theorem chunkRanges_eq (fuel : Nat) (buffer : Bytes) :
    chunkRanges F fuel buffer p =
      walk buffer.length (fun start => serialCut F p (buffer.drop start)) fuel 0 [] := by
  simp only [chunkRanges, cut_eq F ordered]

theorem chunkRanges_sound {fuel : Nat} {buffer : Bytes} {all : List (Nat × Nat)}
    (returned : chunkRanges F fuel buffer p = some all) :
    ∃ sizes, (cutter F ordered).Cuts buffer sizes [] ∧ all = ranges 0 sizes := by
  rw [chunkRanges_eq F ordered] at returned
  exact walk_sound F ordered returned (Nat.zero_le _)

theorem chunkRanges_complete {fuel : Nat} {buffer : Bytes} {sizes : List Nat}
    (cuts : (cutter F ordered).Cuts buffer sizes []) (enough : buffer.length < fuel) :
    chunkRanges F fuel buffer p = some (ranges 0 sizes) := by
  have count := cuts.length_le
  have total := cuts.rest.1
  rw [chunkRanges_eq F ordered,
    walk_complete F ordered (by simpa using cuts) (Nat.zero_le _) (by omega), List.nil_append]

/-! ## Reading -/

theorem readToEnd_spec (limit : Nat) (r : Reader) :
    (r.readToEnd limit).1 = r.rest.take limit ∧ (r.readToEnd limit).2.rest = r.rest.drop limit := by
  fun_induction Reader.readToEnd limit r with
  | case1 limit r got nothing =>
    have none : limit = 0 ∨ r.rest = [] := by
      simp only [got, Reader.read, List.length_take] at nothing
      rw [← List.length_eq_zero_iff]
      omega
    rcases none with rfl | empty
    · simp [Reader.read]
    · simp [Reader.read, empty]
  | case2 limit r got something more r' rest ih =>
    have least : min limit (r.pace r.turn + 1) ≤ limit := Nat.min_le_left _ _
    rw [rest] at ih
    simp only [got, Reader.read] at something ih ⊢
    generalize min limit (r.pace r.turn + 1) = n at something least ih ⊢
    rw [ih.1, ih.2, List.length_take, List.drop_drop]
    by_cases enough : n ≤ r.rest.length
    · rw [Nat.min_eq_left enough, ← List.take_add, show n + (limit - n) = limit by omega]
      exact ⟨rfl, rfl⟩
    · have all : r.rest.length ≤ n := by omega
      rw [List.take_of_length_le all, List.drop_eq_nil_of_le all, List.take_nil, List.append_nil,
        List.take_of_length_le (by omega), List.drop_eq_nil_of_le (by omega),
        List.drop_eq_nil_of_le (by omega)]
      exact ⟨rfl, rfl⟩

/-- The window is full, or nothing is left to read. -/
theorem fill_spec (cap : Nat) (reader : Reader) (buffer : Bytes) (eof : Bool)
    (ended : eof = true → reader.rest = []) :
    ∃ reader' buffer' eof', fill cap reader buffer eof = (reader', buffer', eof') ∧
      buffer' ++ reader'.rest = buffer ++ reader.rest ∧ (eof' = true → reader'.rest = []) ∧
      (eof' = false → cap ≤ buffer'.length) := by
  fun_induction fill cap reader buffer eof with
  | case1 reader buffer eof going got ih =>
    obtain ⟨read, left⟩ := readToEnd_spec (cap - buffer.length) reader
    obtain ⟨reader', buffer', eof', filled, same, rest⟩ := ih (by
      intro nothing
      rw [decide_eq_true_eq, show got = reader.rest.take _ from read, List.length_take] at nothing
      rw [left, ← List.length_eq_zero_iff, List.length_drop]
      omega)
    refine ⟨reader', buffer', eof', filled, ?_, rest⟩
    rw [same, left, show got = reader.rest.take _ from read, List.append_assoc,
      List.take_append_drop]
  | case2 reader buffer eof stopped =>
    refine ⟨reader, buffer, eof, rfl, rfl, ended, fun going => ?_⟩
    by_contra room
    exact stopped ⟨by omega, going⟩

/-! ## The stream -/

variable (chunkAddress : Bytes → Bytes)

/-- What has been put out are the pieces up to `base`; window and reader hold the rest. -/
structure Inv (content : Bytes) (s : Scan) : Prop where
  within : s.base ≤ content.length
  holds : s.buffer ++ s.reader.rest = content.drop s.base
  ended : s.eof = true → s.reader.rest = []
  room : 0 < s.windowCap
  pieces : ∃ sizes, (cutter F ordered).Cuts content sizes (content.drop s.base) ∧
    sizes.sum = s.base ∧ s.out = addressRanges chunkAddress content (ranges 0 sizes)

/-- Bytes to go, and whether the window is too small for a chunk. -/
def toGo (p : CdcParams) (content : Bytes) (s : Scan) : Nat :=
  2 * (content.length - s.base) + if s.windowCap < p.maxSize then 1 else 0

variable {F ordered chunkAddress}

/-- Moving the addressed ranges of a window to where the window lies. -/
theorem moved_addressRanges {content buffer : Bytes} {base : Nat} {sizes : List Nat}
    (lies : buffer = slice content base (base + buffer.length)) (fits : sizes.sum ≤ buffer.length) :
    ((addressRanges chunkAddress buffer (ranges 0 sizes)).map fun b : Boundary =>
        { b with start := base + b.start, stop := base + b.start + (b.stop - b.start) }) =
      addressRanges chunkAddress content (ranges base sizes) := by
  have shifted := ranges_map_add base 0 sizes
  rw [Nat.add_zero] at shifted
  rw [addressRanges, addressRanges, ← shifted, List.map_map, List.map_map]
  apply List.map_congr_left
  intro range present
  obtain ⟨-, ascending, bound⟩ := mem_ranges present
  have read : slice buffer range.1 range.2 = slice content (base + range.1) (base + range.2) := by
    rw [lies, slice, slice, slice, List.drop_take, List.drop_take, List.drop_take, List.take_take,
      List.drop_take, List.drop_drop]
    congr 1
    omega
  simp only [Function.comp_apply, Boundary.mk.injEq, true_and, read, and_true]
  omega

theorem addressRanges_append (content : Bytes) (early late : List (Nat × Nat)) :
    addressRanges chunkAddress content (early ++ late) =
      addressRanges chunkAddress content early ++ addressRanges chunkAddress content late :=
  List.map_append

/-- A window of which a chunk could be accepted, or which is the last. -/
structure Filled (p : CdcParams) (s : Scan) : Prop where
  full : s.eof = false → s.windowCap ≤ s.buffer.length
  some : s.buffer ≠ []

theorem accept_spec {content : Bytes} {s : Scan} {sizes : List Nat}
    (inv : Inv F ordered chunkAddress content s) (fits : content.length < 2 ^ 64)
    (filled : Filled p s) (cuts : (cutter F ordered).Cuts s.buffer sizes []) :
    (∃ s', accept chunkAddress p s (ranges 0 sizes) = .leave s' ∧
      Inv F ordered chunkAddress content s' ∧ s'.base = content.length) ∨
    (∃ s', accept chunkAddress p s (ranges 0 sizes) = .again s' ∧
      Inv F ordered chunkAddress content s' ∧ toGo p content s' < toGo p content s) := by
  obtain ⟨done, before, sum, out⟩ := inv.pieces
  have length : s.buffer.length + s.reader.rest.length = content.length - s.base := by
    rw [← List.length_append, inv.holds, List.length_drop]
  -- the buffer is a window of what is left
  have windowed : (content.drop s.base).take s.buffer.length = s.buffer := by
    rw [← inv.holds, List.take_left]
  have whole : s.eof = true → (content.drop s.base).take s.buffer.length = content.drop s.base := by
    intro last
    rw [windowed, ← inv.holds, inv.ended last, List.append_nil]
  obtain ⟨early, pieces, kept, bound, all, some⟩ := Cuts.accepted (windowed.symm ▸ cuts) 0 whole
  rw [windowed] at bound kept some
  simp only [Nat.zero_add, cutter_reach] at kept
  have consumed := getLast?_ranges 0 early
  rw [Nat.zero_add] at consumed
  have nonempty : sizes ≠ [] := by
    rintro rfl
    have none := cuts.rest.2
    rw [List.sum_nil, List.drop_zero] at none
    exact filled.some none.symm
  simp only [accept]
  rw [kept, consumed]
  by_cases nothing : early.sum = 0
  · right
    have none : early = [] := List.eq_nil_of_length_eq_zero (by have := pieces.length_le; omega)
    have going : s.eof = false := by
      by_contra last
      exact nonempty (all (by simpa using last) ▸ none)
    have small : s.windowCap < p.maxSize := by
      have full := filled.full going
      by_contra large
      exact some (show p.maxSize ≤ _ by omega) nonempty none
    rw [if_pos nothing, if_neg (going ▸ Bool.false_ne_true)]
    refine ⟨_, rfl, ⟨inv.within, inv.holds, inv.ended, ?_, inv.pieces⟩, ?_⟩
    · show 0 < max _ (4 * p.maxSize)
      omega
    · have grown : ¬ max (min (s.windowCap * 2) (2 ^ 64 - 1)) (4 * p.maxSize) < p.maxSize := by omega
      simp only [toGo, if_pos small, if_neg grown]
      omega
  · rw [if_neg nothing, if_neg (by
      simp only [List.any_eq_true, decide_eq_true_eq, not_exists, not_and, Nat.not_le]
      intro range present
      have := mem_ranges present
      omega)]
    have lies : s.buffer = slice content s.base (s.base + s.buffer.length) := by
      rw [slice, List.drop_take, Nat.add_sub_cancel_left, windowed]
    rw [moved_addressRanges lies bound]
    have next : Inv F ordered chunkAddress content
        { s with
          out := s.out ++ addressRanges chunkAddress content (ranges s.base early)
          base := s.base + early.sum
          buffer := s.buffer.drop early.sum } := by
      refine ⟨show s.base + early.sum ≤ _ by omega, ?_, inv.ended, inv.room,
        done ++ early, ?_, ?_, ?_⟩
      · show s.buffer.drop early.sum ++ s.reader.rest = content.drop (s.base + early.sum)
        rw [← List.drop_drop, ← inv.holds, List.drop_append_of_le_length bound]
      · rw [List.drop_drop] at pieces
        exact before.trans pieces
      · rw [List.sum_append, sum]
      · rw [ranges_append, addressRanges_append, Nat.zero_add, sum, ← out]
    split
    · next last =>
      refine .inl ⟨_, rfl, next, ?_⟩
      have holds := next.holds
      have drained : s.buffer.drop early.sum = [] := last.2
      have ended : s.reader.rest = [] := inv.ended last.1
      have covered : content.drop (s.base + early.sum) = [] := by
        rw [← holds]
        show s.buffer.drop early.sum ++ s.reader.rest = []
        rw [drained, ended, List.append_nil]
      exact Nat.le_antisymm next.within (List.drop_eq_nil_iff.mp covered)
    · refine .inr ⟨_, rfl, next, ?_⟩
      have within := next.within
      simp only [toGo] at within ⊢
      omega

/-- A round that ends leads on, or out with everything. -/
theorem round_spec {content : Bytes} {s : Scan} {fuel : Nat} {next : Round}
    (inv : Inv F ordered chunkAddress content s) (fits : content.length < 2 ^ 64)
    (ran : round F chunkAddress p fuel s = some next) :
    (∃ s', next = .leave s' ∧ Inv F ordered chunkAddress content s' ∧ s'.base = content.length) ∨
    (∃ s', next = .again s' ∧ Inv F ordered chunkAddress content s' ∧
      toGo p content s' < toGo p content s) := by
  obtain ⟨reader, buffer, eof, filled, same, ended, full⟩ :=
    fill_spec s.windowCap s.reader s.buffer s.eof inv.ended
  have kept : Inv F ordered chunkAddress content
      { s with reader := reader, buffer := buffer, eof := eof } :=
    ⟨inv.within, same.trans inv.holds, ended, inv.room, inv.pieces⟩
  simp only [round, filled] at ran
  by_cases none : buffer = []
  · rw [if_pos none] at ran
    obtain rfl := Option.some.inj ran
    refine .inl ⟨_, rfl, kept, ?_⟩
    have last : eof = true := by
      by_contra going
      have room := full (by simpa using going)
      have positive := inv.room
      rw [none, List.length_nil] at room
      omega
    have covered := kept.holds
    rw [show reader.rest = [] from ended last, none] at covered
    exact Nat.le_antisymm inv.within (List.drop_eq_nil_iff.mp covered.symm)
  · rw [if_neg none] at ran
    cases found : chunkRanges F fuel buffer p with
    | none =>
      rw [found] at ran
      cases ran
    | some all =>
      rw [found] at ran
      obtain rfl := Option.some.inj ran
      obtain ⟨sizes, cuts, rfl⟩ := chunkRanges_sound F ordered found
      obtain ⟨s', left, after⟩ | ⟨s', again, after⟩ := accept_spec kept fits ⟨full, none⟩ cuts
      · exact .inl ⟨s', left, after⟩
      · exact .inr ⟨s', again, after⟩

theorem round_total {content : Bytes} {s : Scan} {fuel : Nat} {sizes : List Nat}
    (inv : Inv F ordered chunkAddress content s)
    (cuts : (cutter F ordered).Cuts content sizes []) (enough : content.length < fuel) :
    ∃ next, round F chunkAddress p fuel s = some next := by
  obtain ⟨reader, buffer, eof, filled, same, -, -⟩ :=
    fill_spec s.windowCap s.reader s.buffer s.eof inv.ended
  simp only [round, filled]
  by_cases none : buffer = []
  · exact ⟨_, if_pos none⟩
  · have holds := same.trans inv.holds
    obtain ⟨done, before, -⟩ := inv.pieces
    obtain ⟨late, -, left⟩ := before.continues cuts
    obtain ⟨window, windowed⟩ := left.window buffer.length
    rw [← holds, List.take_left] at windowed
    have shorter : buffer.length ≤ content.length := by
      have total := congrArg List.length holds
      rw [List.length_append, List.length_drop] at total
      omega
    rw [if_neg none, chunkRanges_complete F ordered windowed (by omega)]
    exact ⟨_, rfl⟩

variable (F p) in
/-- The boundaries of the whole content, or the error where it is not as long as declared. -/
def Whole (chunkAddress : Bytes → Bytes) (content : Bytes) (len : Nat) (sizes : List Nat) :
    Except ScanError (List Boundary) :=
  if content.length = len then .ok (addressRanges chunkAddress content (ranges 0 sizes))
  else .error (.sourceHolds content.length len)

theorem scanLoop_sound {content : Bytes} {s : Scan} {len fuel : Nat}
    {result : Except ScanError (List Boundary)} (inv : Inv F ordered chunkAddress content s)
    (fits : content.length < 2 ^ 64)
    (returned : scanLoop F chunkAddress p len fuel s = some result) :
    ∃ sizes, (cutter F ordered).Cuts content sizes [] ∧
      result = Whole chunkAddress content len sizes := by
  induction fuel generalizing s with
  | zero => cases returned
  | succ fuel ih =>
    rw [scanLoop] at returned
    cases ran : round F chunkAddress p fuel s with
    | none =>
      rw [ran] at returned
      cases returned
    | some next =>
      rw [ran] at returned
      obtain ⟨s', rfl, inv', all⟩ | ⟨s', rfl, inv', -⟩ := round_spec inv fits ran
      · obtain rfl := Option.some.inj returned
        obtain ⟨sizes, cuts, -, out⟩ := inv'.pieces
        rw [all, List.drop_length] at cuts
        refine ⟨sizes, cuts, ?_⟩
        rw [finish, all, out, Whole]
        by_cases declared : content.length = len
        · rw [if_pos declared, require, if_pos declared]
          rfl
        · rw [if_neg declared, require, if_neg declared]
          rfl
      · exact ih inv' returned

theorem scanLoop_total {content : Bytes} {s : Scan} {len fuel : Nat} {sizes : List Nat}
    (inv : Inv F ordered chunkAddress content s) (fits : content.length < 2 ^ 64)
    (cuts : (cutter F ordered).Cuts content sizes [])
    (enough : toGo p content s + content.length + 1 < fuel) :
    ∃ result, scanLoop F chunkAddress p len fuel s = some result := by
  induction fuel generalizing s with
  | zero => omega
  | succ fuel ih =>
    obtain ⟨next, ran⟩ := round_total inv cuts (show content.length < fuel by omega)
    rw [scanLoop, ran]
    obtain ⟨s', rfl, -, -⟩ | ⟨s', rfl, inv', less⟩ := round_spec inv fits ran
    · exact ⟨_, rfl⟩
    · exact ih inv' (by omega)

theorem inv_start (content : Bytes) (pace : Nat → Nat) (turn len window : Nat) :
    Inv F ordered chunkAddress content
      ⟨⟨content, pace, turn⟩, min (max window (4 * p.maxSize)) (max len 1), [], 0, false, []⟩ where
  within := Nat.zero_le _
  holds := rfl
  ended := nofun
  room := by
    show 0 < min _ _
    omega
  pieces := ⟨[], .done content, rfl, rfl⟩

theorem validate_eq_ok (p : CdcParams) : p.validate = .ok () ↔
    0 < p.minSize ∧ (p.minSize < p.avgSize ∧ p.avgSize < p.maxSize) ∧
      p.maxSize ≤ 16 * 1024 * 1024 := by
  simp only [CdcParams.validate, bind_eq_ok, require_eq_ok, exists_const]
  omega

/-! ## When the scan ends -/

variable (ordered)

variable (F p) in
/-- Some chunk of the bytes begins with an empty cut. -/
inductive Stalls : Bytes → Prop where
  | here {bytes : Bytes} (empty : EmptyCut F p bytes) : Stalls bytes
  | later {bytes : Bytes} (more : Stalls (bytes.drop (serialCut F p bytes))) : Stalls bytes

theorem not_stalls_iff (positive : 0 < p.minSize) {content : Bytes} :
    ¬ Stalls F p content ↔ ∃ sizes, (cutter F ordered).Cuts content sizes [] := by
  constructor
  · refine exists_cuts (P := fun bytes => ¬ Stalls F p bytes) (fun bytes some going => ?_) content
    refine ⟨Nat.pos_of_ne_zero fun zero => ?_, fun stalls => going (.later stalls)⟩
    exact going (.here ((serialCut_eq_zero F positive ordered some).mp zero))
  · rintro ⟨sizes, cuts⟩ stalls
    induction stalls generalizing sizes with
    | @here bytes empty =>
      have some : bytes ≠ [] := by
        rintro rfl
        cases empty.2.1
      have zero := (serialCut_eq_zero F positive ordered some).mpr empty
      generalize rest_def : ([] : Bytes) = rest at cuts
      cases cuts with
      | done => exact some rest_def.symm
      | piece positive _ =>
        rw [cutter_cut, zero] at positive
        cases positive
    | @later bytes _ ih =>
      generalize rest_def : ([] : Bytes) = rest at cuts
      cases cuts with
      | done =>
        subst rest_def
        exact ih [] (by rw [List.drop_nil]; exact .done [])
      | piece _ more =>
        subst rest_def
        exact ih _ more

theorem not_stalls_of_two_le (two : 2 ≤ p.minSize) (content : Bytes) : ¬ Stalls F p content := by
  intro stalls
  induction stalls with
  | here empty =>
    have single := empty.1
    omega
  | later _ ih => exact ih

theorem scan_sound (valid : p.validate = .ok ()) {content : Bytes} (fits : content.length < 2 ^ 64)
    {pace : Nat → Nat} {turn len window fuel : Nat} {result : Except ScanError (List Boundary)}
    (returned : scanStreamWindowed F chunkAddress fuel ⟨content, pace, turn⟩ len p window =
      some result) :
    ∃ sizes, (cutter F ordered).Cuts content sizes [] ∧
      result = Whole chunkAddress content len sizes := by
  rw [scanStreamWindowed, valid] at returned
  exact scanLoop_sound (inv_start content pace turn len window) fits returned

theorem scan_total (valid : p.validate = .ok ()) {content : Bytes} (fits : content.length < 2 ^ 64)
    {sizes : List Nat} (cuts : (cutter F ordered).Cuts content sizes []) (pace : Nat → Nat)
    (turn len window : Nat) :
    ∃ fuel result,
      scanStreamWindowed F chunkAddress fuel ⟨content, pace, turn⟩ len p window = some result := by
  obtain ⟨result, returned⟩ := scanLoop_total (inv_start content pace turn len window) fits cuts
    (Nat.lt_succ_self _)
  exact ⟨_, result, by rw [scanStreamWindowed, valid]; exact returned⟩

/-- **A stream is scanned as the whole buffer is, exactly where no cut is empty.** -/
theorem scan_stream_eq_whole_iff (F : FastCdc) (chunkAddress : Bytes → Bytes) (p : CdcParams)
    (valid : p.validate = .ok ()) (content : Bytes) (fits : content.length < 2 ^ 64)
    (pace : Nat → Nat) (turn len window : Nat) :
    (∃ result, (∃ fuel, scanStreamWindowed F chunkAddress fuel ⟨content, pace, turn⟩ len p window =
        some result) ∧
      ((∃ e, result = .error e) ↔ content.length ≠ len) ∧
      ∀ boundaries, result = .ok boundaries → ∃ fuel ranges,
        chunkRanges F fuel content p = some ranges ∧
          boundaries = addressRanges chunkAddress content ranges) ↔
    2 ≤ p.minSize ∨ ¬ Stalls F p content := by
  obtain ⟨positive, ordered, -⟩ := (validate_eq_ok p).mp valid
  constructor
  · rintro ⟨result, ⟨fuel, returned⟩, -⟩
    obtain ⟨sizes, cuts, -⟩ := scan_sound ordered valid fits returned
    exact .inr ((not_stalls_iff ordered positive).mpr ⟨sizes, cuts⟩)
  · intro condition
    have going : ¬ Stalls F p content := condition.elim (not_stalls_of_two_le · content) id
    obtain ⟨sizes, cuts⟩ := (not_stalls_iff ordered positive).mp going
    obtain ⟨fuel, result, returned⟩ := scan_total ordered valid fits cuts pace turn len window
    obtain ⟨sizes', cuts', rfl⟩ := scan_sound ordered valid fits returned
    obtain rfl := cuts'.unique cuts
    have whole := chunkRanges_complete F ordered cuts (Nat.lt_succ_self content.length)
    refine ⟨_, ⟨fuel, returned⟩, ?_, ?_⟩
    · by_cases declared : content.length = len <;> simp [Whole, declared]
    · intro boundaries ok
      refine ⟨_, _, whole, ?_⟩
      by_cases declared : content.length = len
      · rw [Whole, if_pos declared] at ok
        exact (Except.ok.inj ok).symm
      · rw [Whole, if_neg declared] at ok
        cases ok

/-- The first entries of `MASKS`, which are padding, with any gear table. -/
def padded : FastCdc where
  gear _ := 1
  masks i := if i < 5 then 0 else 0x0000000001804110
  logarithm2 := Nat.log2

theorem scan_stream_eq_whole_default : (⟨[1, 2, 3], fun _ => 0, 0⟩ : Reader).rest.length < 2 ^ 64 ∧
    ∃ result, (∃ fuel, scanStreamWindowed padded id fuel ⟨[1, 2, 3], fun _ => 0, 0⟩ 3 .default 1 =
        some result) ∧
      ((∃ e, result = .error e) ↔ [1, 2, 3].length ≠ 3) ∧
      ∀ boundaries, result = .ok boundaries → ∃ fuel ranges,
        chunkRanges padded fuel [1, 2, 3] .default = some ranges ∧
          boundaries = addressRanges id [1, 2, 3] ranges :=
  ⟨by decide, (scan_stream_eq_whole_iff padded id .default (by decide) [1, 2, 3] (by decide)
    (fun _ => 0) 0 3 1).mpr (.inl (by decide))⟩

/-- Two bytes, cut with the sizes 1, 2 and 3: the first cut is empty, and the scan never ends. -/
theorem scan_stream_never_ends :
    CdcParams.validate ⟨1, 2, 3⟩ = .ok () ∧
    ¬ ∃ fuel result, scanStreamWindowed padded id fuel ⟨[7, 7], fun _ => 0, 0⟩ 2 ⟨1, 2, 3⟩ 1 =
      some result := by
  have valid : CdcParams.validate ⟨1, 2, 3⟩ = .ok () := by decide
  obtain ⟨positive, ordered, -⟩ := (validate_eq_ok _).mp valid
  refine ⟨valid, ?_⟩
  rintro ⟨fuel, result, returned⟩
  obtain ⟨sizes, cuts, -⟩ := scan_sound ordered valid (by decide) returned
  refine (not_stalls_iff ordered positive).mpr ⟨sizes, cuts⟩ (.here ⟨rfl, by decide, ?_⟩)
  decide

end OneLink.Pcdc

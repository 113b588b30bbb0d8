import Mathlib.Data.List.Basic
import Netpull.Bytes
import Netpull.Lib.Decimal
import Netpull.Lib.Terminal
import Netpull.Lib.Transition

/-!
# The console

Log messages above the lines that are kept at the bottom of the terminal. How many rows the lines
take there is not stored: it is the number of lines less what was claimed and destroyed since they
were drawn. `ConsoleInv` ties it to what the terminal shows. `std::cerr` is tied to `std::cout`, so
what is written to either comes to the terminal in the order in which it is written.
-/

namespace Netpull

/-! ## The program -/

inductive LogLevel
  | kVerbose
  | kInfo
  | kWarning
  | kError
  | kErrno
deriving DecidableEq, Repr

namespace Ansi

def kFgRed : Bytes := 27 :: text "[31m"
def kFgYellow : Bytes := 27 :: text "[33m"
def kFgMagenta : Bytes := 27 :: text "[35m"
def kBgBlack : Bytes := 27 :: text "[40m"
def kBold : Bytes := 27 :: text "[1m"
def kReset : Bytes := 27 :: text "[0m"
def kMoveUp : Bytes := 27 :: text "[A"
def kClearToEos : Bytes := 27 :: text "[J"

end Ansi

open Ansi

/-- The loop that moves the cursor up. Its counter is an `int`, which overflows beyond `2 ^ 31`
trips. -/
def moveUps (n : UInt64) : Option Bytes :=
  if n.toNat < 2 ^ 31 then some (List.replicate n.toNat kMoveUp).flatten else none

/-- `ConsoleLine::InternalUnsafeEraseOldLines`, for `size` lines. -/
def internalUnsafeEraseOldLines (size : Nat) (diff : Int) : Option Bytes :=
  let drawn := UInt64.ofNat size - UInt64.ofInt diff
  let ups := if drawn > 0 then moveUps (drawn - 1) else some []
  ups.map fun ups => [13] ++ ups ++ kClearToEos

/-- What `ConsoleLine::InternalUnsafeDrawAll` writes. -/
def drawLoop : Bool → List Bytes → Bytes
  | _, [] => []
  | first, content :: contents =>
    (if first then [] else [newline]) ++ content ++ drawLoop false contents

/-- What `LogGenericString` writes between the lines that it erases and draws. -/
def logBytes (strerror : Int → Bytes) (level : LogLevel) (str : Bytes) (errnoSave errno : Int) :
    Bytes :=
  match level with
  | .kVerbose =>
    kBold ++ kFgYellow ++ kBgBlack ++ text "[VERBOSE] " ++ kReset ++ kFgYellow ++ kBgBlack ++ str ++
      kReset ++ [newline]
  | .kInfo => str ++ [newline]
  | .kWarning => kBold ++ kFgMagenta ++ text "[WARNING] " ++ kReset ++ str ++ [newline]
  | .kErrno | .kError =>
    kBold ++ kFgRed ++ text "[ERROR] " ++ kReset ++ str ++
      (if level = .kErrno then
        text ": " ++ strerror errnoSave ++ text " [errno " ++ Decimal.printInt errno ++ text "]"
      else []) ++ [newline]

/-- The text of a log message, without its colours. -/
def logText (strerror : Int → Bytes) (level : LogLevel) (str : Bytes) (errnoSave errno : Int) :
    Bytes :=
  match level with
  | .kVerbose => text "[VERBOSE] " ++ str
  | .kInfo => str
  | .kWarning => text "[WARNING] " ++ str
  | .kError => text "[ERROR] " ++ str
  | .kErrno =>
    text "[ERROR] " ++ str ++ text ": " ++ strerror errnoSave ++ text " [errno " ++
      Decimal.printInt errno ++ text "]"

/-- The lines, by their addresses, and the terminal. `logs` are the log messages that were printed,
`drawn` the lines as they were drawn last. -/
structure ConsoleState where
  lines : List (Nat × Bytes) := []
  diff : Int := 0
  verbose : Bool := false
  terminal : Terminal := {}
  logs : List Bytes := []
  drawn : List Bytes := []

/-- The calls of the console. A new line gets an address that none has. -/
inductive ConsoleEvent
  | enableVerboseLogging
  | claim (line : Nat)
  | update (line : Nat) (content : Bytes)
  | destroy (line : Nat)
  | log (level : LogLevel) (str : Bytes) (errnoSave errno : Int)
  | drawAll
deriving DecidableEq, Repr

namespace ConsoleState

def contents (s : ConsoleState) : List Bytes := s.lines.map Prod.snd

def IsLive (s : ConsoleState) (line : Nat) : Prop := line ∈ s.lines.map Prod.fst

instance (s : ConsoleState) (line : Nat) : Decidable (s.IsLive line) :=
  inferInstanceAs (Decidable (_ ∈ _))

/-- The lines are erased, a log message is printed, if there is one, and the lines are drawn
again. -/
def redraw (s : ConsoleState) (message : Bytes) (logged : List Bytes) : Option ConsoleState := do
  let erased ← internalUnsafeEraseOldLines s.lines.length s.diff
  some { s with
    terminal := s.terminal.feed (erased ++ message ++ drawLoop true s.contents)
    diff := 0
    logs := s.logs ++ logged
    drawn := s.contents }

end ConsoleState

/-- A call of the console; nothing if it names a line that is not there, or an `int` overflows. -/
def consoleStep (strerror : Int → Bytes) (s : ConsoleState) : ConsoleEvent → Option ConsoleState
  | .enableVerboseLogging => some { s with verbose := true }
  | .claim line =>
    if s.IsLive line then none
    else (addInt s.diff 1).map fun diff => { s with lines := s.lines ++ [(line, [])], diff }
  | .update line content =>
    if s.IsLive line then
      some { s with lines := s.lines.map fun l => if l.1 = line then (line, content) else l }
    else none
  | .destroy line =>
    if s.IsLive line then
      (addInt s.diff (-1)).map fun diff =>
        { s with lines := s.lines.eraseP fun l => l.1 = line, diff }
    else none
  | .log level str errnoSave errno =>
    if level = .kVerbose ∧ !s.verbose then some s
    else
      s.redraw (logBytes strerror level str errnoSave errno)
        [logText strerror level str errnoSave errno]
  | .drawAll => s.redraw [] []

/-- A call that draws the lines. -/
def ConsoleEvent.Draws (s : ConsoleState) : ConsoleEvent → Prop
  | .log level _ _ _ => level = .kVerbose → s.verbose = true
  | .drawAll => True
  | _ => False

/-- What is written in a call fits into a row: it has no carriage return, newline or escape. -/
def ConsoleEvent.OneRow (strerror : Int → Bytes) : ConsoleEvent → Prop
  | .update _ content => Terminal.Plain content
  | .log level str errnoSave _ =>
    Terminal.Plain str ∧ (level = .kErrno → Terminal.Plain (strerror errnoSave))
  | _ => True

instance (strerror : Int → Bytes) : DecidablePred (ConsoleEvent.OneRow strerror)
  | .update _ content => inferInstanceAs (Decidable (Terminal.Plain content))
  | .log level str errnoSave _ => inferInstanceAs
      (Decidable (Terminal.Plain str ∧ (level = .kErrno → Terminal.Plain (strerror errnoSave))))
  | .enableVerboseLogging | .claim _ | .destroy _ | .drawAll => inferInstanceAs (Decidable True)

/-! ## What is written -/

section Feed

open Terminal

theorem prints_colour {bytes : Bytes}
    (hbytes : bytes ∈ [kBold, kFgYellow, kBgBlack, kReset, kFgMagenta, kFgRed]) :
    Prints bytes [] := by
  apply prints_graphic
  simp only [List.mem_cons, List.not_mem_nil, or_false] at hbytes
  rcases hbytes with rfl | rfl | rfl | rfl | rfl | rfl
  · exact isGraphic_parameters (text "1") rfl
  · exact isGraphic_parameters (text "33") rfl
  · exact isGraphic_parameters (text "40") rfl
  · exact isGraphic_parameters (text "0") rfl
  · exact isGraphic_parameters (text "35") rfl
  · exact isGraphic_parameters (text "31") rfl

theorem plain_printInt (n : Int) : Plain (Decimal.printInt n) := by
  have hbyte : ∀ b : UInt8, b = 13 ∨ b = 10 ∨ b = 27 → b ∉ Decimal.printInt n := by
    intro b hb hmem
    rcases Decimal.mem_printInt b hmem with hdigit | rfl
    · rcases hb with rfl | rfl | rfl <;> exact absurd hdigit (by decide)
    · exact absurd hb (by decide)
  exact ⟨hbyte 13 (by decide), hbyte 10 (by decide), hbyte 27 (by decide)⟩

/-- What is printed for a log message in front of its newline. -/
theorem exists_logBytes {strerror : Int → Bytes} {level : LogLevel} {str : Bytes} {errnoSave : Int}
    (hstr : Plain str) (hstrerror : level = .kErrno → Plain (strerror errnoSave)) (errno : Int) :
    ∃ bytes, logBytes strerror level str errnoSave errno = bytes ++ [newline] ∧
      Prints bytes (logText strerror level str errnoSave errno) := by
  have hbold : Prints kBold [] := prints_colour (by simp)
  have hreset : Prints kReset [] := prints_colour (by simp)
  have hred : Prints kFgRed [] := prints_colour (by simp)
  have hyellow : Prints kFgYellow [] := prints_colour (by simp)
  have hblack : Prints kBgBlack [] := prints_colour (by simp)
  have hmagenta : Prints kFgMagenta [] := prints_colour (by simp)
  have hstr := prints_plain hstr
  cases level with
  | kVerbose =>
    have htag : Prints (text "[VERBOSE] ") (text "[VERBOSE] ") := prints_plain (by decide)
    have hall := (((((((hbold.append hyellow).append hblack).append htag).append hreset).append
      hyellow).append hblack).append hstr).append hreset
    refine ⟨_, rfl, ?_⟩
    rwa [List.append_nil] at hall
  | kInfo => exact ⟨str, rfl, hstr⟩
  | kWarning =>
    have htag : Prints (text "[WARNING] ") (text "[WARNING] ") := prints_plain (by decide)
    exact ⟨_, rfl, (((hbold.append hmagenta).append htag).append hreset).append hstr⟩
  | kError =>
    have htag : Prints (text "[ERROR] ") (text "[ERROR] ") := prints_plain (by decide)
    have hall := (((hbold.append hred).append htag).append hreset).append hstr
    refine ⟨_, ?_, hall⟩
    rw [logBytes, if_neg (by decide), List.append_nil]
  | kErrno =>
    have htag : Prints (text "[ERROR] ") (text "[ERROR] ") := prints_plain (by decide)
    have hcolon : Prints (text ": ") (text ": ") := prints_plain (by decide)
    have hopen : Prints (text " [errno ") (text " [errno ") := prints_plain (by decide)
    have hclose : Prints (text "]") (text "]") := prints_plain (by decide)
    have hnumber := prints_plain (plain_printInt errno)
    have herrno := (((hcolon.append (prints_plain (hstrerror rfl))).append hopen).append
      hnumber).append hclose
    have hall := ((((hbold.append hred).append htag).append hreset).append hstr).append herrno
    have htext : logText strerror .kErrno str errnoSave errno = [] ++ [] ++ text "[ERROR] " ++ [] ++
        str ++ (text ": " ++ strerror errnoSave ++ text " [errno " ++ Decimal.printInt errno ++
          text "]") := by
      simp only [logText, List.append_assoc, List.nil_append]
    rw [← htext] at hall
    refine ⟨_, ?_, hall⟩
    rw [logBytes, if_pos rfl]

/-- A log message is a row of its own. -/
theorem feed_logBytes {strerror : Int → Bytes} {t : Terminal} {above : List Bytes}
    (h : t.Shows above []) {level : LogLevel} {str : Bytes} {errnoSave : Int} (hstr : Plain str)
    (hstrerror : level = .kErrno → Plain (strerror errnoSave)) (errno : Int) :
    (t.feed (logBytes strerror level str errnoSave errno)).Shows
      (above ++ [logText strerror level str errnoSave errno]) [] := by
  obtain ⟨bytes, hbytes, hprints⟩ := exists_logBytes hstr hstrerror errno
  rw [hbytes, feed_append]
  exact (hprints t above [] h).feed_newline

/-- The lines, when some are drawn already. -/
theorem feed_drawLoop {t : Terminal} {above : List Bytes} {last : Bytes} (h : t.Shows above last)
    {contents : List Bytes} (hplain : ∀ content ∈ contents, Plain content) :
    (t.feed (drawLoop false contents)).Shows (above ++ (last :: contents).dropLast)
      (contents.getLastD last) := by
  induction contents generalizing t above last with
  | nil => rwa [List.dropLast_singleton, List.append_nil]
  | cons content contents ih =>
    obtain ⟨hcontent, hrest⟩ := List.forall_mem_cons.1 hplain
    have hrow := h.feed_newline.feed_plain hcontent
    rw [List.nil_append] at hrow
    have hall := ih hrow hrest
    rw [List.append_assoc, List.singleton_append] at hall
    rw [drawLoop, if_neg (by decide), feed_append, feed_append, List.dropLast_cons_cons,
      List.getLastD_cons]
    exact hall

theorem feed_drawLoop_first {t : Terminal} {above : List Bytes} (h : t.Shows above [])
    {contents : List Bytes} (hplain : ∀ content ∈ contents, Plain content) :
    (t.feed (drawLoop true contents)).Shows (above ++ contents.dropLast)
      (contents.getLastD []) := by
  cases contents with
  | nil => rwa [List.dropLast_nil, List.append_nil]
  | cons content contents =>
    obtain ⟨hcontent, hrest⟩ := List.forall_mem_cons.1 hplain
    rw [drawLoop, if_pos rfl, List.nil_append, feed_append, List.getLastD_cons]
    exact feed_drawLoop (h.feed_plain hcontent) hrest

end Feed

/-! ## Every run -/

/-- What ties the state of the console to the terminal. -/
structure ConsoleInv (s : ConsoleState) : Prop where
  length_eq : (s.lines.length : Int) = s.drawn.length + s.diff
  diff_bounds : -2 ^ 31 ≤ s.diff ∧ s.diff < 2 ^ 31
  length_le : s.drawn.length ≤ 2 ^ 32
  plain : ∀ content ∈ s.contents, Terminal.Plain content
  shows : s.terminal.Shows (s.logs ++ s.drawn.dropLast) (s.drawn.getLastD [])

variable {s s' : ConsoleState} {strerror : Int → Bytes}

/-- The number of the lines that were drawn last. -/
theorem ConsoleInv.drawn_eq (h : ConsoleInv s) :
    UInt64.ofNat s.lines.length - UInt64.ofInt s.diff = UInt64.ofNat s.drawn.length := by
  have hdiff := toNat_ofInt s.diff
  have hlength := h.length_eq
  have hbounds := h.diff_bounds
  have hle := h.length_le
  rw [← UInt64.toNat_inj, UInt64.toNat_sub, UInt64.toNat_ofNat', UInt64.toNat_ofNat']
  omega

/-- The cursor goes up to the first of the lines that were drawn last. -/
theorem ConsoleInv.erase_eq (h : ConsoleInv s) :
    internalUnsafeEraseOldLines s.lines.length s.diff =
      if s.drawn.dropLast.length < 2 ^ 31 then
        some ([13] ++ (List.replicate s.drawn.dropLast.length kMoveUp).flatten ++ kClearToEos)
      else none := by
  have hle := h.length_le
  have htoNat : (UInt64.ofNat s.drawn.length).toNat = s.drawn.length := by
    rw [UInt64.toNat_ofNat', Nat.mod_eq_of_lt (by omega)]
  rw [internalUnsafeEraseOldLines, h.drawn_eq, List.length_dropLast]
  by_cases hpos : UInt64.ofNat s.drawn.length > 0
  · have hone : (UInt64.ofNat s.drawn.length - 1).toNat = s.drawn.length - 1 := by
      have hle : (1 : UInt64) ≤ UInt64.ofNat s.drawn.length := by
        rw [UInt64.le_iff_toNat_le, htoNat]
        exact htoNat ▸ UInt64.lt_iff_toNat_lt.1 hpos
      rw [UInt64.toNat_sub_of_le _ _ hle, htoNat]
      rfl
    simp only [if_pos hpos, moveUps, hone]
    split <;> rfl
  · have hzero : s.drawn.length = 0 := by
      rw [gt_iff_lt, UInt64.lt_iff_toNat_lt, htoNat] at hpos
      exact Nat.le_zero.1 (Nat.not_lt.1 hpos)
    rw [if_neg hpos, hzero]
    rfl

theorem ConsoleInv.redraw (h : ConsoleInv s) {message : Bytes} {logged : List Bytes}
    (hmessage : ∀ t : Terminal, t.Shows s.logs [] → (t.feed message).Shows (s.logs ++ logged) [])
    (hs : s.redraw message logged = some s') :
    ConsoleInv s' ∧ s'.drawn = s'.contents := by
  obtain ⟨erased, herased, hsome⟩ := Option.bind_eq_some_iff.1 hs
  obtain rfl := Option.some.inj hsome
  rw [h.erase_eq] at herased
  split at herased
  case isFalse => cases herased
  case isTrue hlt =>
  obtain rfl := Option.some.inj herased
  rw [List.length_dropLast] at hlt
  have hlength := h.length_eq
  have hbounds := h.diff_bounds
  have hcontents : s.contents.length = s.lines.length := List.length_map _
  refine ⟨⟨?_, (by decide : -2 ^ 31 ≤ (0 : Int) ∧ (0 : Int) < 2 ^ 31), ?_, h.plain, ?_⟩, rfl⟩
  · simp only [hcontents]
    omega
  · simp only [hcontents]
    omega
  · simp only
    rw [Terminal.feed_append, Terminal.feed_append]
    exact feed_drawLoop_first (hmessage _ h.shows.feed_erase) h.plain

/-- What a call keeps; after a call that draws, the lines are as they were drawn. -/
theorem ConsoleInv.step (h : ConsoleInv s) {e : ConsoleEvent} (hrow : e.OneRow strerror)
    (hs : consoleStep strerror s e = some s') :
    ConsoleInv s' ∧ (e.Draws s → s'.drawn = s'.contents) := by
  have hlength := h.length_eq
  cases e with
  | enableVerboseLogging =>
    obtain rfl := Option.some.inj hs
    exact ⟨⟨h.length_eq, h.diff_bounds, h.length_le, h.plain, h.shows⟩, False.elim⟩
  | claim line =>
    simp only [consoleStep] at hs
    split at hs
    · cases hs
    · obtain ⟨diff, hdiff, rfl⟩ := Option.map_eq_some_iff.1 hs
      obtain ⟨hbounds, rfl⟩ := addInt_eq_some.1 hdiff
      refine ⟨⟨?_, hbounds, h.length_le, ?_, h.shows⟩, False.elim⟩
      · change ((s.lines ++ [(line, [])]).length : Int) = s.drawn.length + (s.diff + 1)
        rw [List.length_append, List.length_singleton]
        omega
      · intro content hcontent
        rw [ConsoleState.contents, List.map_append] at hcontent
        rcases List.mem_append.1 hcontent with hold | hnew
        · exact h.plain content hold
        · rw [List.mem_singleton.1 hnew]
          exact (by decide : Terminal.Plain [])
  | update line content =>
    simp only [consoleStep] at hs
    split at hs
    · obtain rfl := Option.some.inj hs
      refine ⟨⟨?_, h.diff_bounds, h.length_le, ?_, h.shows⟩, False.elim⟩
      · rw [List.length_map]
        exact hlength
      · intro content' hcontent'
        rw [ConsoleState.contents, List.map_map] at hcontent'
        obtain ⟨l, hl, rfl⟩ := List.mem_map.1 hcontent'
        rw [Function.comp_apply]
        split
        · exact hrow
        · exact h.plain l.2 (List.mem_map_of_mem hl)
    · cases hs
  | destroy line =>
    simp only [consoleStep] at hs
    split at hs
    · next hlive =>
      obtain ⟨l, hl, hline⟩ := List.mem_map.1 hlive
      obtain ⟨diff, hdiff, rfl⟩ := Option.map_eq_some_iff.1 hs
      obtain ⟨hbounds, rfl⟩ := addInt_eq_some.1 hdiff
      have hpos := List.length_pos_of_mem hl
      refine ⟨⟨?_, hbounds, h.length_le, ?_, h.shows⟩, False.elim⟩
      · change ((s.lines.eraseP fun l => l.1 = line).length : Int) = s.drawn.length + (s.diff + -1)
        rw [List.length_eraseP_of_mem hl (decide_eq_true hline)]
        omega
      · intro content hcontent
        obtain ⟨l', hl', rfl⟩ := List.mem_map.1 hcontent
        exact h.plain l'.2 (List.mem_map_of_mem (List.mem_of_mem_eraseP hl'))
    · cases hs
  | log level str errnoSave errno =>
    simp only [consoleStep] at hs
    split at hs
    · next hquiet =>
      obtain rfl := Option.some.inj hs
      refine ⟨h, fun hdraws => ?_⟩
      rw [hdraws hquiet.1] at hquiet
      exact absurd hquiet.2 (by decide)
    · obtain ⟨hinv, hdrawn⟩ :=
        h.redraw (fun t ht => feed_logBytes ht hrow.1 hrow.2 errno) hs
      exact ⟨hinv, fun _ => hdrawn⟩
  | drawAll =>
    have hnothing : ∀ t : Terminal, t.Shows s.logs [] → (t.feed []).Shows (s.logs ++ []) [] := by
      intro t ht
      rwa [List.append_nil]
    obtain ⟨hinv, hdrawn⟩ := h.redraw hnothing hs
    exact ⟨hinv, fun _ => hdrawn⟩

theorem consoleInv_init : ConsoleInv {} where
  length_eq := rfl
  diff_bounds := by decide
  length_le := by decide
  plain content hcontent := absurd hcontent List.not_mem_nil
  shows := Terminal.shows_new

/-- The lines that a call names are there; a line that is claimed is new. -/
def ConsoleEvent.Names (s : ConsoleState) : ConsoleEvent → Prop
  | .claim line => ¬ s.IsLive line
  | .update line _ | .destroy line => s.IsLive line
  | _ => True

/-- After `n` calls there are no more than `n` lines. -/
structure ConsoleSize (s : ConsoleState) (n : Nat) : Prop where
  lines : s.lines.length ≤ n
  diff : -n ≤ s.diff ∧ s.diff ≤ n
  drawn : s.drawn.length ≤ n

theorem ConsoleInv.redraw_some (h : ConsoleInv s) (hlt : s.drawn.length < 2 ^ 31) (message : Bytes)
    (logged : List Bytes) : ∃ s', s.redraw message logged = some s' := by
  have hlt' : s.drawn.dropLast.length < 2 ^ 31 := by
    rw [List.length_dropLast]
    omega
  rw [ConsoleState.redraw, h.erase_eq, if_pos hlt']
  exact ⟨_, rfl⟩

/-- As long as there are few lines, a call has an outcome. -/
theorem ConsoleInv.goes_on (h : ConsoleInv s) {n : Nat} (hsize : ConsoleSize s n)
    (hn : n < 2 ^ 31 - 1) {e : ConsoleEvent} (hnames : e.Names s) :
    ∃ s', consoleStep strerror s e = some s' := by
  have hdiff := hsize.diff
  have hdrawn := hsize.drawn
  cases e with
  | enableVerboseLogging => exact ⟨_, rfl⟩
  | claim line =>
    have hnew : ¬ s.IsLive line := hnames
    have hadd : addInt s.diff 1 = some (s.diff + 1) := addInt_eq_some.2 ⟨by omega, rfl⟩
    rw [consoleStep, if_neg hnew, hadd]
    exact ⟨_, rfl⟩
  | update line content =>
    have hlive : s.IsLive line := hnames
    rw [consoleStep, if_pos hlive]
    exact ⟨_, rfl⟩
  | destroy line =>
    have hlive : s.IsLive line := hnames
    have hadd : addInt s.diff (-1) = some (s.diff + -1) := addInt_eq_some.2 ⟨by omega, rfl⟩
    rw [consoleStep, if_pos hlive, hadd]
    exact ⟨_, rfl⟩
  | log level str errnoSave errno =>
    rw [consoleStep]
    split
    · exact ⟨_, rfl⟩
    · exact h.redraw_some (by omega) _ _
  | drawAll => exact h.redraw_some (by omega) _ _

theorem ConsoleSize.redraw {n : Nat} (h : ConsoleSize s n) {message : Bytes} {logged : List Bytes}
    (hs : s.redraw message logged = some s') : ConsoleSize s' (n + 1) := by
  obtain ⟨erased, -, hsome⟩ := Option.bind_eq_some_iff.1 hs
  obtain rfl := Option.some.inj hsome
  have hlines := h.lines
  refine ⟨Nat.le_succ_of_le hlines, ⟨?_, ?_⟩, ?_⟩
  · change -((n + 1 : Nat) : Int) ≤ 0
    omega
  · change 0 ≤ ((n + 1 : Nat) : Int)
    omega
  · change (s.lines.map Prod.snd).length ≤ n + 1
    rw [List.length_map]
    omega

theorem ConsoleSize.step {n : Nat} (h : ConsoleSize s n) {e : ConsoleEvent}
    (hs : consoleStep strerror s e = some s') : ConsoleSize s' (n + 1) := by
  have hlines := h.lines
  have hdiff := h.diff
  have hdrawn := h.drawn
  have hstays : ConsoleSize s (n + 1) := ⟨by omega, by omega, by omega⟩
  cases e with
  | enableVerboseLogging =>
    obtain rfl := Option.some.inj hs
    exact ⟨hstays.lines, hstays.diff, hstays.drawn⟩
  | claim line =>
    simp only [consoleStep] at hs
    split at hs
    · cases hs
    · obtain ⟨diff, hadd, rfl⟩ := Option.map_eq_some_iff.1 hs
      obtain ⟨-, rfl⟩ := addInt_eq_some.1 hadd
      refine ⟨?_, ?_, hstays.drawn⟩
      · rw [List.length_append, List.length_singleton]
        omega
      · simp only
        omega
  | update line content =>
    simp only [consoleStep] at hs
    split at hs
    · obtain rfl := Option.some.inj hs
      refine ⟨?_, hstays.diff, hstays.drawn⟩
      rw [List.length_map]
      exact hstays.lines
    · cases hs
  | destroy line =>
    simp only [consoleStep] at hs
    split at hs
    · obtain ⟨diff, hadd, rfl⟩ := Option.map_eq_some_iff.1 hs
      obtain ⟨-, rfl⟩ := addInt_eq_some.1 hadd
      refine ⟨List.length_eraseP_le.trans hstays.lines, ?_, hstays.drawn⟩
      simp only
      omega
    · cases hs
  | log level str errnoSave errno =>
    simp only [consoleStep] at hs
    split at hs
    · obtain rfl := Option.some.inj hs
      exact hstays
    · exact h.redraw hs
  | drawAll => exact h.redraw hs

open Transition

/-- What a run comes to. -/
theorem consoleInv_of_script {es : List ConsoleEvent} (hrow : ∀ e ∈ es, e.OneRow strerror)
    (hrun : script (consoleStep strerror) {} es = some s) :
    ConsoleInv s ∧ ConsoleSize s es.length := by
  induction es using List.reverseRecOn generalizing s with
  | nil =>
    obtain rfl := Option.some.inj hrun
    exact ⟨consoleInv_init, ⟨Nat.le_refl _, by decide, Nat.le_refl _⟩⟩
  | append_singleton es e ih =>
    obtain ⟨s₁, hs₁, hstep⟩ := script_snoc hrun
    obtain ⟨hinv, hsize⟩ := ih (fun e he => hrow e (List.mem_append_left _ he)) hs₁
    rw [List.length_append, List.length_singleton]
    exact ⟨(hinv.step (hrow e (List.mem_append_right _ (.head _))) hstep).1, hsize.step hstep⟩

/-- **The console never corrupts**: the size of the list less the difference is the number of the
lines that were drawn last, the terminal shows the log messages and these lines, which are the live
ones after a call that draws; and no call is refused before there were `2 ^ 31` of them. -/
theorem console_exact {es : List ConsoleEvent} (hrow : ∀ e ∈ es, e.OneRow strerror)
    (hrun : script (consoleStep strerror) {} es = some s) :
    (UInt64.ofNat s.lines.length - UInt64.ofInt s.diff).toNat = s.drawn.length ∧
    s.terminal.ShowsRows (s.logs ++ s.drawn) ∧
    (∀ before e s₀, es = before ++ [e] → script (consoleStep strerror) {} before = some s₀ →
      e.Draws s₀ → s.terminal.ShowsRows (s.logs ++ s.contents)) ∧
    (es.length < 2 ^ 31 - 1 → ∀ e : ConsoleEvent, e.Names s →
      ∃ s', consoleStep strerror s e = some s') := by
  obtain ⟨hinv, hsize⟩ := consoleInv_of_script hrow hrun
  refine ⟨?_, hinv.shows.showsRows, ?_, fun hlen e hnames => hinv.goes_on hsize hlen hnames⟩
  · have hle := hinv.length_le
    rw [hinv.drawn_eq, UInt64.toNat_ofNat', Nat.mod_eq_of_lt (by omega)]
  · rintro before e s₀ rfl hs₀ hdraws
    obtain ⟨s₁, hs₁, hstep⟩ := script_snoc hrun
    obtain rfl := Option.some.inj (hs₁.symm.trans hs₀)
    have hinv₁ := (consoleInv_of_script (fun e he => hrow e (List.mem_append_left _ he)) hs₁).1
    have hdrawn := (hinv₁.step (hrow e (List.mem_append_right _ (.head _))) hstep).2 hdraws
    rw [← hdrawn]
    exact hinv.shows.showsRows

def noSuchFile (_ : Int) : Bytes := text "No such file or directory"

/-- Two lines, of which the first is destroyed between two messages. -/
def consoleCalls : List ConsoleEvent :=
  [.claim 1, .update 1 (text "a.txt"), .drawAll, .claim 2, .update 2 (text "b.txt"),
    .log .kInfo (text "started") 0 0, .destroy 1, .log .kErrno (text "open") 2 2]

theorem console_exact_twoLines :
    ∃ s, script (consoleStep noSuchFile) {} consoleCalls = some s ∧ s.drawn = [text "b.txt"] ∧
      (UInt64.ofNat s.lines.length - UInt64.ofInt s.diff).toNat = s.drawn.length ∧
      s.terminal.ShowsRows [text "started",
        text "[ERROR] open: No such file or directory [errno 2]", text "b.txt"] := by
  have hends : (script (consoleStep noSuchFile) {} consoleCalls).map
      (fun s => (s.logs, s.drawn)) = some ([text "started",
        text "[ERROR] open: No such file or directory [errno 2]"], [text "b.txt"]) := by decide
  obtain ⟨s, hrun, hs⟩ := Option.map_eq_some_iff.1 hends
  obtain ⟨hlogs, hdrawn⟩ := Prod.mk.inj hs
  obtain ⟨hcount, hrows, -⟩ := console_exact (by decide) hrun
  rw [hlogs, hdrawn] at hrows
  exact ⟨s, hrun, hdrawn, hcount, hrows⟩

end Netpull

import OpenJfx.Java.Strings
import Mathlib.Data.List.Nodup

namespace OpenJfx.Input

open Java

/-- Of a key only the name is kept, not the platform's code and the classes it belongs to. -/
inductive KeyCode where
  | enter | backSpace | tab | cancel | clear | shift | control | alt | pause | caps | escape
  | space | pageUp | pageDown | endKey | home | left | up | right | down | comma | minus | period
  | slash | digit0 | digit1 | digit2 | digit3 | digit4 | digit5 | digit6 | digit7 | digit8
  | digit9 | semicolon | equals | a | b | c | d | e | f | g | h | i | j | k | l | m | n | o | p
  | q | r | s | t | u | v | w | x | y | z | openBracket | backSlash | closeBracket | numpad0
  | numpad1 | numpad2 | numpad3 | numpad4 | numpad5 | numpad6 | numpad7 | numpad8 | numpad9
  | multiply | add | separator | subtract | decimal | divide | delete | numLock | scrollLock | f1
  | f2 | f3 | f4 | f5 | f6 | f7 | f8 | f9 | f10 | f11 | f12 | f13 | f14 | f15 | f16 | f17 | f18
  | f19 | f20 | f21 | f22 | f23 | f24 | printscreen | insert | help | metaKey | backQuote | quote
  | kpUp | kpDown | kpLeft | kpRight | deadGrave | deadAcute | deadCircumflex | deadTilde
  | deadMacron | deadBreve | deadAbovedot | deadDiaeresis | deadAbovering | deadDoubleacute
  | deadCaron | deadCedilla | deadOgonek | deadIota | deadVoicedSound | deadSemivoicedSound
  | ampersand | asterisk | quotedbl | less | greater | braceleft | braceright | atSign | colon
  | circumflex | dollar | euroSign | exclamationMark | invertedExclamationMark | leftParenthesis
  | numberSign | plus | rightParenthesis | underscore | windows | contextMenu | final | convert
  | nonconvert | accept | modechange | kana | kanji | alphanumeric | katakana | hiragana
  | fullWidth | halfWidth | romanCharacters | allCandidates | previousCandidate | codeInput
  | japaneseKatakana | japaneseHiragana | japaneseRoman | kanaLock | inputMethodOnOff | cut
  | copy | paste | undo | again | find | props | stop | compose | altGraph | begin | undefined
  | softkey0 | softkey1 | softkey2 | softkey3 | softkey4 | softkey5 | softkey6 | softkey7
  | softkey8 | softkey9 | gameA | gameB | gameC | gameD | star | pound | power | info
  | coloredKey0 | coloredKey1 | coloredKey2 | coloredKey3 | ejectToggle | play | record | fastFwd
  | rewind | trackPrev | trackNext | channelUp | channelDown | volumeUp | volumeDown | mute
  | command | shortcut
deriving DecidableEq

/-- The chars of a text without characters beyond the basic plane. -/
def chars (s : String) : Text := s.toList.map fun c => c.toNat.toUInt16

namespace KeyCode

def name : KeyCode → String
  | .enter => "Enter"
  | .backSpace => "Backspace"
  | .tab => "Tab"
  | .cancel => "Cancel"
  | .clear => "Clear"
  | .shift => "Shift"
  | .control => "Ctrl"
  | .alt => "Alt"
  | .pause => "Pause"
  | .caps => "Caps Lock"
  | .escape => "Esc"
  | .space => "Space"
  | .pageUp => "Page Up"
  | .pageDown => "Page Down"
  | .endKey => "End"
  | .home => "Home"
  | .left => "Left"
  | .up => "Up"
  | .right => "Right"
  | .down => "Down"
  | .comma => "Comma"
  | .minus => "Minus"
  | .period => "Period"
  | .slash => "Slash"
  | .digit0 => "0"
  | .digit1 => "1"
  | .digit2 => "2"
  | .digit3 => "3"
  | .digit4 => "4"
  | .digit5 => "5"
  | .digit6 => "6"
  | .digit7 => "7"
  | .digit8 => "8"
  | .digit9 => "9"
  | .semicolon => "Semicolon"
  | .equals => "Equals"
  | .a => "A"
  | .b => "B"
  | .c => "C"
  | .d => "D"
  | .e => "E"
  | .f => "F"
  | .g => "G"
  | .h => "H"
  | .i => "I"
  | .j => "J"
  | .k => "K"
  | .l => "L"
  | .m => "M"
  | .n => "N"
  | .o => "O"
  | .p => "P"
  | .q => "Q"
  | .r => "R"
  | .s => "S"
  | .t => "T"
  | .u => "U"
  | .v => "V"
  | .w => "W"
  | .x => "X"
  | .y => "Y"
  | .z => "Z"
  | .openBracket => "Open Bracket"
  | .backSlash => "Back Slash"
  | .closeBracket => "Close Bracket"
  | .numpad0 => "Numpad 0"
  | .numpad1 => "Numpad 1"
  | .numpad2 => "Numpad 2"
  | .numpad3 => "Numpad 3"
  | .numpad4 => "Numpad 4"
  | .numpad5 => "Numpad 5"
  | .numpad6 => "Numpad 6"
  | .numpad7 => "Numpad 7"
  | .numpad8 => "Numpad 8"
  | .numpad9 => "Numpad 9"
  | .multiply => "Multiply"
  | .add => "Add"
  | .separator => "Separator"
  | .subtract => "Subtract"
  | .decimal => "Decimal"
  | .divide => "Divide"
  | .delete => "Delete"
  | .numLock => "Num Lock"
  | .scrollLock => "Scroll Lock"
  | .f1 => "F1"
  | .f2 => "F2"
  | .f3 => "F3"
  | .f4 => "F4"
  | .f5 => "F5"
  | .f6 => "F6"
  | .f7 => "F7"
  | .f8 => "F8"
  | .f9 => "F9"
  | .f10 => "F10"
  | .f11 => "F11"
  | .f12 => "F12"
  | .f13 => "F13"
  | .f14 => "F14"
  | .f15 => "F15"
  | .f16 => "F16"
  | .f17 => "F17"
  | .f18 => "F18"
  | .f19 => "F19"
  | .f20 => "F20"
  | .f21 => "F21"
  | .f22 => "F22"
  | .f23 => "F23"
  | .f24 => "F24"
  | .printscreen => "Print Screen"
  | .insert => "Insert"
  | .help => "Help"
  | .metaKey => "Meta"
  | .backQuote => "Back Quote"
  | .quote => "Quote"
  | .kpUp => "Numpad Up"
  | .kpDown => "Numpad Down"
  | .kpLeft => "Numpad Left"
  | .kpRight => "Numpad Right"
  | .deadGrave => "Dead Grave"
  | .deadAcute => "Dead Acute"
  | .deadCircumflex => "Dead Circumflex"
  | .deadTilde => "Dead Tilde"
  | .deadMacron => "Dead Macron"
  | .deadBreve => "Dead Breve"
  | .deadAbovedot => "Dead Abovedot"
  | .deadDiaeresis => "Dead Diaeresis"
  | .deadAbovering => "Dead Abovering"
  | .deadDoubleacute => "Dead Doubleacute"
  | .deadCaron => "Dead Caron"
  | .deadCedilla => "Dead Cedilla"
  | .deadOgonek => "Dead Ogonek"
  | .deadIota => "Dead Iota"
  | .deadVoicedSound => "Dead Voiced Sound"
  | .deadSemivoicedSound => "Dead Semivoiced Sound"
  | .ampersand => "Ampersand"
  | .asterisk => "Asterisk"
  | .quotedbl => "Double Quote"
  | .less => "Less"
  | .greater => "Greater"
  | .braceleft => "Left Brace"
  | .braceright => "Right Brace"
  | .atSign => "At"
  | .colon => "Colon"
  | .circumflex => "Circumflex"
  | .dollar => "Dollar"
  | .euroSign => "Euro Sign"
  | .exclamationMark => "Exclamation Mark"
  | .invertedExclamationMark => "Inverted Exclamation Mark"
  | .leftParenthesis => "Left Parenthesis"
  | .numberSign => "Number Sign"
  | .plus => "Plus"
  | .rightParenthesis => "Right Parenthesis"
  | .underscore => "Underscore"
  | .windows => "Windows"
  | .contextMenu => "Context Menu"
  | .final => "Final"
  | .convert => "Convert"
  | .nonconvert => "Nonconvert"
  | .accept => "Accept"
  | .modechange => "Mode Change"
  | .kana => "Kana"
  | .kanji => "Kanji"
  | .alphanumeric => "Alphanumeric"
  | .katakana => "Katakana"
  | .hiragana => "Hiragana"
  | .fullWidth => "Full Width"
  | .halfWidth => "Half Width"
  | .romanCharacters => "Roman Characters"
  | .allCandidates => "All Candidates"
  | .previousCandidate => "Previous Candidate"
  | .codeInput => "Code Input"
  | .japaneseKatakana => "Japanese Katakana"
  | .japaneseHiragana => "Japanese Hiragana"
  | .japaneseRoman => "Japanese Roman"
  | .kanaLock => "Kana Lock"
  | .inputMethodOnOff => "Input Method On/Off"
  | .cut => "Cut"
  | .copy => "Copy"
  | .paste => "Paste"
  | .undo => "Undo"
  | .again => "Again"
  | .find => "Find"
  | .props => "Properties"
  | .stop => "Stop"
  | .compose => "Compose"
  | .altGraph => "Alt Graph"
  | .begin => "Begin"
  | .undefined => "Undefined"
  | .softkey0 => "Softkey 0"
  | .softkey1 => "Softkey 1"
  | .softkey2 => "Softkey 2"
  | .softkey3 => "Softkey 3"
  | .softkey4 => "Softkey 4"
  | .softkey5 => "Softkey 5"
  | .softkey6 => "Softkey 6"
  | .softkey7 => "Softkey 7"
  | .softkey8 => "Softkey 8"
  | .softkey9 => "Softkey 9"
  | .gameA => "Game A"
  | .gameB => "Game B"
  | .gameC => "Game C"
  | .gameD => "Game D"
  | .star => "Star"
  | .pound => "Pound"
  | .power => "Power"
  | .info => "Info"
  | .coloredKey0 => "Colored Key 0"
  | .coloredKey1 => "Colored Key 1"
  | .coloredKey2 => "Colored Key 2"
  | .coloredKey3 => "Colored Key 3"
  | .ejectToggle => "Eject"
  | .play => "Play"
  | .record => "Record"
  | .fastFwd => "Fast Forward"
  | .rewind => "Rewind"
  | .trackPrev => "Previous Track"
  | .trackNext => "Next Track"
  | .channelUp => "Channel Up"
  | .channelDown => "Channel Down"
  | .volumeUp => "Volume Up"
  | .volumeDown => "Volume Down"
  | .mute => "Mute"
  | .command => "Command"
  | .shortcut => "Shortcut"

def getName (key : KeyCode) : Text := chars key.name

def values : List KeyCode :=
  [.enter, .backSpace, .tab, .cancel, .clear, .shift, .control, .alt, .pause, .caps, .escape,
    .space, .pageUp, .pageDown, .endKey, .home, .left, .up, .right, .down, .comma, .minus,
    .period, .slash, .digit0, .digit1, .digit2, .digit3, .digit4, .digit5, .digit6, .digit7,
    .digit8, .digit9, .semicolon, .equals, .a, .b, .c, .d, .e, .f, .g, .h, .i, .j, .k, .l, .m,
    .n, .o, .p, .q, .r, .s, .t, .u, .v, .w, .x, .y, .z, .openBracket, .backSlash, .closeBracket,
    .numpad0, .numpad1, .numpad2, .numpad3, .numpad4, .numpad5, .numpad6, .numpad7, .numpad8,
    .numpad9, .multiply, .add, .separator, .subtract, .decimal, .divide, .delete, .numLock,
    .scrollLock, .f1, .f2, .f3, .f4, .f5, .f6, .f7, .f8, .f9, .f10, .f11, .f12, .f13, .f14, .f15,
    .f16, .f17, .f18, .f19, .f20, .f21, .f22, .f23, .f24, .printscreen, .insert, .help, .metaKey,
    .backQuote, .quote, .kpUp, .kpDown, .kpLeft, .kpRight, .deadGrave, .deadAcute,
    .deadCircumflex, .deadTilde, .deadMacron, .deadBreve, .deadAbovedot, .deadDiaeresis,
    .deadAbovering, .deadDoubleacute, .deadCaron, .deadCedilla, .deadOgonek, .deadIota,
    .deadVoicedSound, .deadSemivoicedSound, .ampersand, .asterisk, .quotedbl, .less, .greater,
    .braceleft, .braceright, .atSign, .colon, .circumflex, .dollar, .euroSign, .exclamationMark,
    .invertedExclamationMark, .leftParenthesis, .numberSign, .plus, .rightParenthesis,
    .underscore, .windows, .contextMenu, .final, .convert, .nonconvert, .accept, .modechange,
    .kana, .kanji, .alphanumeric, .katakana, .hiragana, .fullWidth, .halfWidth, .romanCharacters,
    .allCandidates, .previousCandidate, .codeInput, .japaneseKatakana, .japaneseHiragana,
    .japaneseRoman, .kanaLock, .inputMethodOnOff, .cut, .copy, .paste, .undo, .again, .find,
    .props, .stop, .compose, .altGraph, .begin, .undefined, .softkey0, .softkey1, .softkey2,
    .softkey3, .softkey4, .softkey5, .softkey6, .softkey7, .softkey8, .softkey9, .gameA, .gameB,
    .gameC, .gameD, .star, .pound, .power, .info, .coloredKey0, .coloredKey1, .coloredKey2,
    .coloredKey3, .ejectToggle, .play, .record, .fastFwd, .rewind, .trackPrev, .trackNext,
    .channelUp, .channelDown, .volumeUp, .volumeDown, .mute, .command, .shortcut]

def getKeyCode (name : Text) : Option KeyCode :=
  values.reverse.find? fun key => key.getName = name

def number (name : Text) : Nat := name.foldl (fun n c => n * 65536 + c.toNat) 0

theorem mem_values (key : KeyCode) : key ∈ values := by
  have hkey : values[key.ctorIdx]? = some key := by cases key <;> rfl
  exact List.mem_of_getElem? hkey

/-- The chars of the name as its bytes, which are evaluated faster. -/
def bytes (key : KeyCode) : Text := key.name.toByteArray.data.toList.map UInt8.toUInt16

theorem getName_eq_bytes (key : KeyCode) : key.getName = key.bytes := by
  cases key <;> decide +kernel

theorem find?_bytes : ∀ key ∈ values,
    (values.find? fun other => Nat.beq (number other.bytes) (number key.bytes)) = some key := by
  decide +kernel

theorem getName_injective : Function.Injective getName := by
  intro key other hname
  have hkey := find?_bytes key (mem_values key)
  rw [← getName_eq_bytes key, hname, getName_eq_bytes] at hkey
  exact Option.some.inj (hkey.symm.trans (find?_bytes other (mem_values other)))

theorem getKeyCode_getName (key : KeyCode) : getKeyCode key.getName = some key := by
  have hsome : (getKeyCode key.getName).isSome := by
    rw [getKeyCode, List.find?_isSome]
    exact ⟨key, List.mem_reverse.mpr (mem_values key), by simp⟩
  rcases Option.isSome_iff_exists.mp hsome with ⟨found, hfound⟩
  have hname : found.getName = key.getName := by
    have hfound := List.find?_some hfound
    simpa using hfound
  rw [hfound, getName_injective hname]

theorem getKeyCode_eq_none {name : Text}
    (h : ∀ key ∈ values, number key.bytes ≠ number name) : getKeyCode name = none := by
  rw [getKeyCode, List.find?_eq_none]
  intro key hkey hname
  apply h key (List.mem_reverse.mp hkey)
  rw [← getName_eq_bytes, of_decide_eq_true hname]

end KeyCode

end OpenJfx.Input

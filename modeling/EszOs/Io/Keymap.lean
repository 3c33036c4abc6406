import EszOs.Types.String

/-!
# The keymap (`maps/keymap.cpp`)

The layout is the configured one, `LAYOUT_US`. A keycode is a character or, from 256 on, a `KeyCode`
of a key that is none.
-/

namespace EszOs

/-- What `scancode_to_keycode` returns. -/
abbrev Keycode := UInt16

namespace Keycode

def unknown : Keycode := 0

def enter : Keycode := 256

def backspace : Keycode := 257

def tab : Keycode := 258

def lshift : Keycode := 259

def rshift : Keycode := 260

def lctrl : Keycode := 261

def lalt : Keycode := 263

def escape : Keycode := 266

/-- The keycodes of the characters of a text. -/
def plain (text : String) : List Keycode := (literal text).map UInt8.toUInt16

end Keycode

open Keycode in
/-- `us_keymap`, unshifted and shifted. -/
def usKeymap (shift : Bool) : List Keycode :=
  if shift then
    [0, escape] ++ plain "!@#$%^&*()_+" ++ [backspace, tab] ++ plain "QWERTYUIOP\x7b\x7d" ++
      [enter, lctrl] ++ plain "ASDFGHJKL:\x22~" ++ [lshift] ++ plain "|ZXCVBNM<>?" ++ [rshift] ++
      plain "*" ++ [lalt] ++ plain " "
  else
    [0, escape] ++ plain "1234567890-=" ++ [backspace, tab] ++ plain "qwertyuiop[]" ++
      [enter, lctrl] ++ plain "asdfghjkl;'`" ++ [lshift] ++ plain "\\zxcvbnm,./" ++ [rshift] ++
      plain "*" ++ [lalt] ++ plain " "

def scancodeToKeycode (shift : Bool) (scancode : UInt8) : Keycode :=
  if scancode ≥ 0x3A then .unknown else (usKeymap shift).getD scancode.toNat .unknown

/-- Each scancode below `0x3A` has an entry in both halves of the map. -/
theorem length_usKeymap (shift : Bool) : (usKeymap shift).length = 0x3A := by
  cases shift <;> decide

end EszOs

import Cartridge.Layout.Printer
import Cartridge.Layout.Reader

/-!
# Layouts as JSON texts

Layout texts are read and printed by a library.  It is told the names of the fields, what each of
them holds and which value it has when it is missing; the rest is its own work.

* `Layout.Codec`       a reader and a printer of layout texts;
* `Layout.fromJson`, `Layout.toJson`   what is made of a text and of a layout: a fault that the
                       library finds is the cause of the failure;
* `Layout.codec`       the reader and the printer that the program runs with.
-/

namespace Cartridge.Layout

structure Codec where
  read : List Char → Except LayoutFault Layout
  print : Layout → Except LayoutFault (List Char)

def fromJson (codec : Codec) (text : List Char) : Except Error Layout :=
  (codec.read text).mapError .layout

def toJson (codec : Codec) (l : Layout) : Except Error (List Char) :=
  (codec.print l).mapError .layout

def codec : Codec where
  read := ofText
  print l := .ok l.text

end Cartridge.Layout

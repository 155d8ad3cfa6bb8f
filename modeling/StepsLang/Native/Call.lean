import StepsLang.Native.Draw
import StepsLang.Native.File
import StepsLang.Native.Text

namespace StepsLang.Native

def call? (f : Native) (arguments : List Value) (l : Location) : Option (Effect Value) :=
  match f, arguments with
  | uppercase, [v] => some (Text.uppercase v l)
  | lowercase, [v] => some (Text.lowercase v l)
  | trim, [v] => some (Text.trim v l)
  | indexOf, [v, search] => some (Text.indexOf v search l)
  | replace, [v, old, new] => some (Text.replace v old new l)
  | slice, [v, first, last] => some (Text.slice v first last l)
  | characters, [v] => some (Text.characters v l)
  | randomInt, [low, high] => some (Draw.int low high l)
  | randomChoice, [v] => some (Draw.choice v l)
  | readFile, [path] => some (File.read path l)
  | writeFile, [path, v] => some (File.write path v l)
  | appendFile, [path, v] => some (File.append path v l)
  | fileExists, [path] => some (File.present path l)
  | readCsv, [path] => some (File.readCsv path l)
  | writeCsv, [path, data] => some (File.writeCsv path data l)
  | _, _ => none

end StepsLang.Native

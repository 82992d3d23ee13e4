import Cb.Golden.Suite
import Cb.Hash
import Cb.Text.ByteSize
import Cb.Yaml.Block

/-! The library and the host that the programs are run with. -/

namespace Cb

namespace Project

def lookup (entries : List (YamlScalar × Yaml)) (key : String) : Yaml :=
  ((entries.find? (·.1.text = utf8 key)).map (·.2)).getD .null

def decodeMap {α : Type} (decode : Yaml → Option α) (value : Yaml) : Option (List (Bytes × α)) := do
  let entries ← value.entries?
  (entries.filter fun entry => !entry.1.isNull).mapM fun (key, value) => (decode value).map (key.text, ·)

def decode? (document : Yaml) : Option Project := do
  let entries ← document.entries?
  let dirs ← (← (lookup entries "include").items?).mapM Yaml.text?
  let text (value : Yaml) : Option Bytes := value.text?.map (·.getD [])
  return {
    includeDirs := dirs.filterMap id
    defines := ← decodeMap text (lookup entries "define")
    warnings := ← decodeMap Yaml.truth? (lookup entries "warnings")
    features := ← decodeMap Yaml.truth? (lookup entries "features")
    output := ← text (lookup entries "output") }

end Project

def Library.standard : Library where
  project? content := (Yaml.parse? content).bind Project.decode?
  sizeText := ByteSize.text

def Golden.Host.standard (compiler : Bytes) : Golden.Host where
  compiler := installed .standard compiler
  hash := Hash.text
  temp := [utf8 "tmp", utf8 "cbtest"]
  id _ := "0"
  overruns limit _ := limit < 1000000

end Cb

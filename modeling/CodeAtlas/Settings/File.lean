import CodeAtlas.Settings.Codec
import CodeAtlas.Toml.Reader
import CodeAtlas.Toml.Writer

/-!
# The settings file
-/

namespace CodeAtlas.Settings

def parse? (s : String) : Option Settings := (Toml.parse? s).bind fun j => ofWritten? j.written

def render (s : Settings) : String := Toml.render ((s.toJson.object?).getD [])

end CodeAtlas.Settings

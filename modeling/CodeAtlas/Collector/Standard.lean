import CodeAtlas.Collector.GoSketches
import CodeAtlas.Collector.JavaSketches

/-!
# The standard collectors
-/

namespace CodeAtlas

/-- The collectors that the program knows by itself (`LanguageRegistry::new`). -/
def Registry.standard : Registry :=
  (Registry.register {} JavaSketches.collector).register GoSketches.collector

end CodeAtlas

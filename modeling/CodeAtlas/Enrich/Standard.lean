import CodeAtlas.Enrich.Events
import CodeAtlas.Enrich.Routes
import CodeAtlas.Enrich.Services

/-!
# The standard plugins
-/

namespace CodeAtlas

/-- The plugins that a project has by default, in the order in which they run (`with_defaults`). -/
def Plugin.standard : List Plugin := [Services.plugin, Events.plugin, Routes.plugin]

end CodeAtlas

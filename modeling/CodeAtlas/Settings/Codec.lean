import CodeAtlas.Json.Record
import CodeAtlas.Settings.Basic

/-!
# Settings as values

Reading settings from a dynamic value, and writing them. A setting that is absent has its default,
and settings that the program does not know are ignored; a route must name its path and handler.
-/

namespace CodeAtlas

open Json

def PipelineSettings.toJson (p : PipelineSettings) : Json :=
  .object [("worker_threads", .nat p.workerThreads), ("file_timeout_ms", .nat p.fileTimeoutMs),
    ("batch_size", .nat p.batchSize), ("sink_retries", .nat p.sinkRetries),
    ("sink_backoff_ms", .nat p.sinkBackoffMs)]

def LoggingSettings.toJson (l : LoggingSettings) : Json :=
  .object [("level", .string l.level), ("format", .string l.format)]

def Settings.toJson (s : Settings) : Json :=
  .object [("pipeline", s.pipeline.toJson),
    ("database", .object [("path", .string s.databasePath)]),
    ("logging", s.logging.toJson), ("enrichment", s.enrichment.toJson)]

def PipelineSettings.ofWritten? (w : Written) : Option PipelineSettings := do
  match ← w.openRecord? (shapeOf (toJson {})) with
  | [workers, timeout, batch, retries, backoff] =>
    return {
      workerThreads := ← workers.natBelow? UInt64.size
      fileTimeoutMs := ← timeout.natBelow? UInt64.size
      batchSize := ← batch.natBelow? UInt64.size, sinkRetries := ← retries.natBelow? UInt32.size
      sinkBackoffMs := ← backoff.natBelow? UInt64.size }
  | _ => none

def LoggingSettings.ofWritten? (w : Written) : Option LoggingSettings := do
  match ← w.openRecord? (shapeOf (toJson {})) with
  | [level, format] => return { level := ← level.string?, format := ← format.string? }
  | _ => none

def Route.ofWritten? (w : Written) : Option Route := do
  match ← w.openRecord? [("method", .value (.string "GET")), ("path", .refused),
      ("handler", .refused)] with
  | [method, path, handler] =>
    return { method := ← method.string?, path := ← path.string?, handler := ← handler.string? }
  | _ => none

def EventSettings.ofWritten? (w : Written) : Option EventSettings := do
  match ← w.openRecord? [("enabled", .value (.bool true)), ("listeners", .value (.object []))] with
  | [enabled, listeners] =>
    return {
      enabled := ← enabled.bool?
      listeners := ← listeners.map? (Written.list? Written.string?) }
  | _ => none

def EnrichmentSettings.ofWritten? (w : Written) : Option EnrichmentSettings := do
  match ← w.openRecord? (shapeOf (toJson {})) with
  | [annotations, services, routes, events] =>
    return {
      routeAnnotations := ← annotations.bool?, services := ← services.map? Written.string?
      routes := ← routes.list? Route.ofWritten?, events := ← EventSettings.ofWritten? events }
  | _ => none

def Settings.ofWritten? (w : Written) : Option Settings := do
  match ← w.openRecord? (shapeOf (toJson {})) with
  | [pipeline, database, logging, enrichment] =>
    match ← database.openRecord? [("path", .value (.string ({} : Settings).databasePath))] with
    | [path] =>
      return {
        pipeline := ← PipelineSettings.ofWritten? pipeline, databasePath := ← path.string?
        logging := ← LoggingSettings.ofWritten? logging
        enrichment := ← EnrichmentSettings.ofWritten? enrichment }
    | _ => none
  | _ => none

end CodeAtlas
